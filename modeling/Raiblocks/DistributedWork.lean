import Raiblocks.BlockJson
import Raiblocks.Kit.Cursor
import Raiblocks.Kit.Runs
import Raiblocks.Messages

set_option autoImplicit false

namespace Rai

open Kit

-- What comes of a request to a peer: a body, which may not be readable, or a failure of the connection.
inductive PeerReply where
  | success (body : Option Ptree)
  | failure

-- Where the handler of a peer is: before its reply, between `remove` and what it makes of the reply, and between the flag it
-- has set and the call it set it for.
inductive PeerHandler where
  | contacted
  | removed (last : Bool) (reply : PeerReply)
  | calling (work : Work)
  | stopping
  | asking
  | finished

-- `distributed_work`, with its handlers, the requests at the local pool and the calls of its callback.
structure DistributedWork where
  outstanding : Table (BitVec 128) (BitVec 16)
  completed : Bool
  handlers : Table (BitVec 128) PeerHandler
  asked : Nat
  waiting : Nat
  calls : List Work
  cancels : List (BitVec 128 × BitVec 16)

def workRejected (env : Env) (root : Hash) (work : Work) : Bool := decide (workValue env root work < publishThreshold env.network)

namespace DistributedWork

section Model

variable (env : Env) (texts : Texts) (root : Hash)

def init (peers : List Endpoint) : DistributedWork where
  outstanding := peers.foldl (fun outstanding peer => outstanding.put peer.address peer.port) .empty
  completed := false
  handlers := .empty
  asked := 0
  waiting := 0
  calls := []
  cancels := []

-- Without peers, `start` turns to the pool itself.
def start (peers : List Endpoint) : DistributedWork :=
  if (init peers).outstanding.size ≠ 0 then
    { init peers with handlers := peers.foldl (fun handlers peer => handlers.put peer.address .contacted) .empty }
  else { init peers with completed := true, asked := 1, waiting := 1 }

def accepted : PeerReply → Option Work
  | .failure => none
  | .success body => do
      let result ← body
      let workText ← result.get "work"
      let work ← fromStringHex texts workText
      if workRejected env root work then none else some work

def handle (state : DistributedWork) (address : BitVec 128) (handler : PeerHandler) : DistributedWork :=
  { state with handlers := state.handlers.put address handler }

def setOnce (state : DistributedWork) (address : BitVec 128) (work : Work) : DistributedWork :=
  if state.completed then state.handle address .stopping
  else { state.handle address (.calling work) with completed := true }

def handleFailure (state : DistributedWork) (address : BitVec 128) (last : Bool) : DistributedWork :=
  if last ∧ ¬ state.completed then { state.handle address .asking with completed := true }
  else state.handle address .finished

def remove (state : DistributedWork) (address : BitVec 128) (reply : PeerReply) : DistributedWork :=
  let outstanding := state.outstanding.del address
  { state.handle address (.removed (decide (outstanding.size = 0)) reply) with outstanding := outstanding }

def judge (state : DistributedWork) (address : BitVec 128) (last : Bool) (reply : PeerReply) : DistributedWork :=
  match accepted env texts root reply with
  | some work => state.setOnce address work
  | none => state.handleFailure address last

def stop (state : DistributedWork) (address : BitVec 128) : DistributedWork :=
  { state.handle address .finished with outstanding := .empty, cancels := state.cancels ++ state.outstanding.rows }

inductive Action where
  | reply (address : BitVec 128) (reply : PeerReply)
  | run (address : BitVec 128)
  | answer (work : Work)

-- The handlers run in any order, one locked section or access of the flag at a time. The pool answers with work that is good.
inductive Step : DistributedWork → Action → DistributedWork → Prop where
  | reply (state : DistributedWork) (address : BitVec 128) (reply : PeerReply) (here : state.handlers.get address = some .contacted) :
      Step state (.reply address reply) (state.remove address reply)
  | judge (state : DistributedWork) (address : BitVec 128) (last : Bool) (reply : PeerReply)
      (here : state.handlers.get address = some (.removed last reply)) : Step state (.run address)
      (judge env texts root state address last reply)
  | call (state : DistributedWork) (address : BitVec 128) (work : Work) (here : state.handlers.get address = some (.calling work)) :
      Step state (.run address) { state.handle address .stopping with calls := state.calls ++ [work] }
  | stop (state : DistributedWork) (address : BitVec 128) (here : state.handlers.get address = some .stopping) :
      Step state (.run address) (state.stop address)
  | ask (state : DistributedWork) (address : BitVec 128) (here : state.handlers.get address = some .asking) :
      Step state (.run address) { state.handle address .finished with asked := state.asked + 1, waiting := state.waiting + 1 }
  | answer (state : DistributedWork) (work : Work) (waits : 0 < state.waiting) (good : workRejected env root work = false) :
      Step state (.answer work) { state with waiting := state.waiting - 1, calls := state.calls ++ [work] }

end Model

def Settled (state : DistributedWork) : Prop :=
  (∀ address handler, state.handlers.get address = some handler → handler = .finished) ∧ state.waiting = 0

end DistributedWork

def PeerHandler.owes : PeerHandler → Nat
  | .calling _ => 1
  | .asking => 1
  | _ => 0

def PeerHandler.left : PeerHandler → Nat
  | .contacted => 4
  | .removed _ _ => 3
  | .calling _ => 2
  | .asking => 2
  | .stopping => 1
  | .finished => 0

def DistributedWork.left (state : DistributedWork) : Nat := state.handlers.sum (fun _ handler => handler.left) + state.waiting

section Invariant

variable (env : Env) (texts : Texts) (root : Hash)

def PeerHandler.Fine (completed : Bool) (outstanding : Table (BitVec 128) (BitVec 16)) : PeerHandler → Prop
  | .removed last _ => last = true → outstanding = .empty
  | .calling work => workRejected env root work = false
  | .asking => outstanding = .empty
  | .stopping => completed = true
  | _ => True

-- While the flag is clear, the outstanding peers are those that have not replied, and somebody is left to set it.
structure Undecided (state : DistributedWork) : Prop where
  contacted : ∀ address, state.outstanding.get address ≠ none ↔ state.handlers.get address = some .contacted
  alive : state.outstanding = .empty → ∃ address reply, state.handlers.get address = some (.removed true reply)

-- The flag is set by the one who then calls, or has the pool call.
structure Distributing (state : DistributedWork) : Prop where
  once : state.calls.length + state.waiting + state.handlers.sum (fun _ handler => handler.owes) = if state.completed then 1 else 0
  good : ∀ work ∈ state.calls, workRejected env root work = false
  fine : ∀ address handler, state.handlers.get address = some handler → handler.Fine env root state.completed state.outstanding
  asked : 0 < state.asked → state.outstanding = .empty
  undecided : state.completed = false → Undecided state

theorem undecided_set (state : DistributedWork) (flag : state.completed = true) (clear : state.completed = false) : Undecided state :=
  absurd (flag.symm.trans clear) Bool.noConfusion

theorem fine_mono (completed completed' : Bool) (outstanding outstanding' : Table (BitVec 128) (BitVec 16)) (handler : PeerHandler)
    (flag : completed = true → completed' = true) (fewer : outstanding = .empty → outstanding' = .empty)
    (fine : handler.Fine env root completed outstanding) : handler.Fine env root completed' outstanding' := by
  cases handler with
  | contacted => trivial
  | removed last reply => exact fun ended => fewer (fine ended)
  | calling work => exact fine
  | stopping => exact flag fine
  | asking => exact fewer fine
  | finished => trivial

section Handled

variable (state : DistributedWork) (address : BitVec 128) (old new : PeerHandler) (here : state.handlers.get address = some old)
  (held : Distributing env root state)

include held in
theorem fine_put (completed : Bool) (outstanding : Table (BitVec 128) (BitVec 16)) (flag : state.completed = true → completed = true)
    (fewer : state.outstanding = .empty → outstanding = .empty) (fine : new.Fine env root completed outstanding) (other : BitVec 128)
    (handler : PeerHandler) (found : (state.handlers.put address new).get other = some handler) :
    handler.Fine env root completed outstanding := by
  by_cases same : other = address
  · rw [same, Table.get_put_self] at found
    exact Option.some.inj found ▸ fine
  · rw [Table.get_put_ne _ _ _ _ same] at found
    exact fine_mono env root _ _ _ _ handler flag fewer (held.fine other handler found)

include here in
theorem contacted_put (replied : old ≠ .contacted) (gone : new ≠ .contacted) (other : BitVec 128) :
    (state.handlers.put address new).get other = some .contacted ↔ state.handlers.get other = some .contacted := by
  by_cases same : other = address
  · rw [same, Table.get_put_self, here]
    exact iff_of_false (fun met => gone (Option.some.inj met)) fun met => replied (Option.some.inj met)
  · rw [Table.get_put_ne _ _ _ _ same]

include here in
theorem owes_put : (state.handlers.put address new).sum (fun _ handler => handler.owes) + old.owes =
    state.handlers.sum (fun _ handler => handler.owes) + new.owes :=
  Table.sum_replace (fun _ handler => PeerHandler.owes handler) state.handlers new here

include here held in
theorem once_put (same : new.owes = old.owes) : state.calls.length + state.waiting +
    (state.handlers.put address new).sum (fun _ handler => handler.owes) = if state.completed then 1 else 0 := by
  have owes := owes_put state address old new here
  rw [← held.once]
  omega

include here held in
theorem once_first (clear : ¬ state.completed = true) (first : new.owes = old.owes + 1) :
    state.calls.length + state.waiting + (state.handlers.put address new).sum (fun _ handler => handler.owes) = 1 := by
  have owes := owes_put state address old new here
  have once := held.once
  rw [if_neg clear] at once
  omega

include held in
theorem good_called (work : Work) (good : workRejected env root work = false) (called : Work)
    (member : called ∈ state.calls ++ [work]) :
    workRejected env root called = false := by
  rcases List.mem_append.mp member with before | now
  · exact held.good called before
  · rw [List.mem_singleton.mp now]
    exact good

include here held in
theorem owing_completed (owes : old.owes = 1) : state.completed = true := by
  have once := held.once
  have part := Table.le_sum (fun _ handler => PeerHandler.owes handler) state.handlers address old here
  cases flag : state.completed with
  | true => rfl
  | false =>
      rw [flag] at once
      simp at once
      omega

end Handled

theorem distributing_reply (state : DistributedWork) (address : BitVec 128) (reply : PeerReply)
    (here : state.handlers.get address = some .contacted) (held : Distributing env root state) :
    Distributing env root (state.remove address reply) := by
  have fewer : state.outstanding = .empty → state.outstanding.del address = .empty := by
    intro none
    rw [none, Table.del_absent _ _ (Table.get_empty _)]
  have ended : (state.outstanding.del address).size = 0 → state.outstanding.del address = .empty := fun none =>
    Table.keys_none _ (Finset.card_eq_zero.mp none)
  refine ⟨once_put env root state address _ _ here held rfl, held.good, ?_, fun asked => fewer (held.asked asked),
    fun clear => ⟨?_, ?_⟩⟩
  · exact fine_put env root state address _ held _ _ id fewer fun last => ended (of_decide_eq_true last)
  · intro other
    by_cases same : other = address
    · simp [DistributedWork.remove, DistributedWork.handle, same]
    · simp only [DistributedWork.remove, DistributedWork.handle]
      rw [Table.get_del_ne _ _ _ same, Table.get_put_ne _ _ _ _ same]
      exact (held.undecided clear).contacted other
  · intro none
    refine ⟨address, reply, ?_⟩
    have last : (state.outstanding.del address).size = 0 := by
      rw [show state.outstanding.del address = .empty from none]
      rfl
    simp [DistributedWork.remove, DistributedWork.handle, last]

theorem accepted_good (reply : PeerReply) (work : Work) (taken : DistributedWork.accepted env texts root reply = some work) :
    workRejected env root work = false := by
  cases reply with
  | failure => cases taken
  | success body =>
      obtain ⟨_, _, taken⟩ := Option.bind_eq_some_iff.mp taken
      obtain ⟨_, _, taken⟩ := Option.bind_eq_some_iff.mp taken
      obtain ⟨number, _, taken⟩ := Option.bind_eq_some_iff.mp taken
      split at taken
      · cases taken
      · next good =>
          rw [← Option.some.inj taken]
          exact Bool.not_eq_true _ ▸ good

theorem distributing_set (state : DistributedWork) (address : BitVec 128) (last : Bool) (reply : PeerReply) (work : Work)
    (here : state.handlers.get address = some (.removed last reply)) (good : workRejected env root work = false)
    (held : Distributing env root state) : Distributing env root (state.setOnce address work) := by
  unfold DistributedWork.setOnce
  cases flag : state.completed with
  | true =>
      refine ⟨once_put env root state address _ _ here held rfl, held.good, ?_, held.asked, undecided_set _ flag⟩
      exact fine_put env root state address _ held _ _ id id flag
  | false =>
      have clear : ¬ state.completed = true := by simp [flag]
      refine ⟨once_first env root state address _ _ here held clear rfl, held.good, ?_, held.asked, undecided_set _ rfl⟩
      exact fine_put env root state address _ held _ _ (fun _ => rfl) id good

theorem distributing_failed (state : DistributedWork) (address : BitVec 128) (last : Bool) (reply : PeerReply)
    (here : state.handlers.get address = some (.removed last reply)) (held : Distributing env root state) :
    Distributing env root (state.handleFailure address last) := by
  unfold DistributedWork.handleFailure
  by_cases turns : last = true ∧ ¬ state.completed = true
  · rw [if_pos turns]
    have ended := held.fine address _ here turns.1
    refine ⟨once_first env root state address _ _ here held turns.2 rfl, held.good, ?_, held.asked, undecided_set _ rfl⟩
    exact fine_put env root state address _ held _ _ (fun _ => rfl) id ended
  · rw [if_neg turns]
    refine ⟨once_put env root state address _ _ here held rfl, held.good, ?_, held.asked, fun clear =>
      ⟨fun other => ?_, fun none => ?_⟩⟩
    · exact fine_put env root state address _ held _ _ id id trivial
    · have same := contacted_put state address _ .finished here PeerHandler.noConfusion PeerHandler.noConfusion other
      exact ((held.undecided clear).contacted other).trans same.symm
    -- The handler that emptied the set is another one, or the flag would be set now.
    · obtain ⟨other, reply', found⟩ := (held.undecided clear).alive none
      have different : other ≠ address := by
        intro same
        rw [same, here] at found
        have first := (PeerHandler.removed.inj (Option.some.inj found)).1
        exact turns ⟨first, fun set => Bool.noConfusion (clear.symm.trans set)⟩
      exact ⟨other, reply', (Table.get_put_ne _ _ _ _ different).trans found⟩

theorem distributing_step (state : DistributedWork) (action : DistributedWork.Action) (next : DistributedWork)
    (held : Distributing env root state) (taken : DistributedWork.Step env texts root state action next) :
    Distributing env root next := by
  cases taken with
  | reply address reply here => exact distributing_reply env root state address reply here held
  | judge address last reply here =>
      unfold DistributedWork.judge
      split
      · next work good =>
          exact distributing_set env root state address last reply work here (accepted_good env texts root reply work good) held
      · exact distributing_failed env root state address last reply here held
  | call address work here =>
      have flag := owing_completed env root state address _ here held rfl
      refine ⟨?_, good_called env root state held work (held.fine address _ here), ?_, held.asked, undecided_set _ flag⟩
      · have owes := owes_put state address _ .stopping here
        have paid : (PeerHandler.calling work).owes = PeerHandler.stopping.owes + 1 := rfl
        refine Eq.trans ?_ held.once
        simp only [DistributedWork.handle, List.length_append, List.length_singleton]
        omega
      · exact fine_put env root state address _ held _ _ id id flag
  | stop address here =>
      have flag : state.completed = true := held.fine address _ here
      refine ⟨once_put env root state address _ _ here held rfl, held.good, ?_, fun _ => rfl, undecided_set _ flag⟩
      exact fine_put env root state address _ held _ _ id (fun _ => rfl) trivial
  | ask address here =>
      have flag := owing_completed env root state address _ here held rfl
      refine ⟨?_, held.good, ?_, fun _ => held.fine address _ here, undecided_set _ flag⟩
      · have owes := owes_put state address _ .finished here
        have paid : PeerHandler.asking.owes = PeerHandler.finished.owes + 1 := rfl
        refine Eq.trans ?_ held.once
        simp only [DistributedWork.handle]
        omega
      · exact fine_put env root state address _ held _ _ id id trivial
  | answer work waits good =>
      refine ⟨?_, good_called env root state held work good, held.fine, held.asked, fun clear => ?_⟩
      · have once := held.once
        simp only [List.length_append, List.length_singleton]
        omega
      · exact ⟨(held.undecided clear).contacted, (held.undecided clear).alive⟩

theorem peers_contacted (peers : List Endpoint) (outstanding : Table (BitVec 128) (BitVec 16))
    (handlers : Table (BitVec 128) PeerHandler) (listed : ∀ address, outstanding.get address ≠ none ↔
    handlers.get address = some .contacted)
    (first : ∀ address handler, handlers.get address = some handler → handler = .contacted) :
    (∀ address, (peers.foldl (fun outstanding peer => outstanding.put peer.address peer.port) outstanding).get address ≠ none ↔
      (peers.foldl (fun handlers peer => handlers.put peer.address .contacted) handlers).get address = some .contacted) ∧
    ∀ address handler, (peers.foldl (fun handlers peer => handlers.put peer.address .contacted) handlers).get address = some handler →
      handler = .contacted := by
  induction peers generalizing outstanding handlers with
  | nil => exact ⟨listed, first⟩
  | cons peer peers ih =>
      refine ih (outstanding.put peer.address peer.port) (handlers.put peer.address .contacted)
        (fun address => ?_) fun address handler found => ?_
      · by_cases same : address = peer.address
        · simp [same]
        · rw [Table.get_put_ne _ _ _ _ same, Table.get_put_ne _ _ _ _ same]
          exact listed address
      · by_cases same : address = peer.address
        · rw [same, Table.get_put_self] at found
          exact (Option.some.inj found).symm
        · rw [Table.get_put_ne _ _ _ _ same] at found
          exact first address handler found

theorem distributing_start (peers : List Endpoint) : Distributing env root (DistributedWork.start peers) := by
  have none (address : BitVec 128) (handler : PeerHandler) (found : Table.get .empty address = some handler) :
    handler = .contacted := by
    rw [Table.get_empty] at found
    cases found
  have listed := peers_contacted peers .empty .empty (fun address => by simp [Table.get_empty]) none
  unfold DistributedWork.start
  split
  · next some_ =>
      have unowed := Table.sum_zero (fun _ handler => PeerHandler.owes handler)
        (peers.foldl (fun handlers peer => handlers.put peer.address .contacted) .empty)
        fun address handler found => by rw [listed.2 address handler found]; rfl
      refine ⟨(Nat.zero_add _).trans unowed, fun _ member => absurd member List.not_mem_nil, ?_, fun asked =>
        absurd asked (Nat.lt_irrefl 0), fun _ => ⟨listed.1, ?_⟩⟩
      · intro address handler found
        rw [listed.2 address handler found]
        trivial
      · intro empty
        rw [show (DistributedWork.init peers).outstanding = .empty from empty] at some_
        exact absurd rfl some_
  · next empty =>
      have gone : (DistributedWork.init peers).outstanding = .empty := Table.keys_none _ (Finset.card_eq_zero.mp (not_not.mp empty))
      have unowed := Table.sum_zero (fun _ handler => PeerHandler.owes handler) .empty
        fun address handler found => by rw [none address handler found]; rfl
      refine ⟨congrArg (1 + ·) unowed, fun _ member => absurd member List.not_mem_nil, ?_, fun _ => gone, undecided_set _ rfl⟩
      intro address handler found
      rw [none address handler found]
      trivial

theorem left_put (state : DistributedWork) (address : BitVec 128) (old new : PeerHandler)
    (here : state.handlers.get address = some old) : (state.handlers.put address new).sum (fun _ handler => handler.left) + old.left =
      state.handlers.sum (fun _ handler => handler.left) + new.left :=
  Table.sum_replace (fun _ handler => PeerHandler.left handler) state.handlers new here

theorem left_handled (state next : DistributedWork) {address : BitVec 128} {old new : PeerHandler}
    (here : state.handlers.get address = some old) (put : next.handlers = state.handlers.put address new)
    (less : next.waiting + new.left < state.waiting + old.left) :
    next.left < state.left := by
  have whole := left_put state address old new here
  rw [DistributedWork.left, DistributedWork.left, put]
  omega

theorem step_left (state : DistributedWork) (action : DistributedWork.Action) (next : DistributedWork)
    (taken : DistributedWork.Step env texts root state action next) : next.left < state.left := by
  cases taken with
  | reply address reply here => exact left_handled state _ here rfl (Nat.lt_succ_self _)
  | judge address last reply here =>
      unfold DistributedWork.judge
      split
      · unfold DistributedWork.setOnce
        split
        · exact left_handled state _ here rfl (by simp [DistributedWork.handle, PeerHandler.left])
        · exact left_handled state _ here rfl (by simp [DistributedWork.handle, PeerHandler.left])
      · unfold DistributedWork.handleFailure
        split
        · exact left_handled state _ here rfl (by simp [DistributedWork.handle, PeerHandler.left])
        · exact left_handled state _ here rfl (by simp [DistributedWork.handle, PeerHandler.left])
  | call address work here => exact left_handled state _ here rfl (by simp [DistributedWork.handle, PeerHandler.left])
  | stop address here => exact left_handled state _ here rfl (by simp [DistributedWork.stop, DistributedWork.handle, PeerHandler.left])
  | ask address here => exact left_handled state _ here rfl (by simp [PeerHandler.left])
  | answer work waits good =>
      rw [DistributedWork.left, DistributedWork.left]
      dsimp only
      omega

theorem step_possible (state : DistributedWork) (unsettled : ¬ state.Settled) (work : Work)
    (good : workRejected env root work = false) :
    ∃ action next, DistributedWork.Step env texts root state action next := by
  by_cases waits : state.waiting = 0
  · have busy : ¬ ∀ address handler, state.handlers.get address = some handler → handler = .finished :=
      fun all => unsettled ⟨all, waits⟩
    simp only [not_forall] at busy
    obtain ⟨address, handler, here, unfinished⟩ := busy
    cases handler with
    | contacted => exact ⟨_, _, .reply state address .failure here⟩
    | removed last reply => exact ⟨_, _, .judge state address last reply here⟩
    | calling work => exact ⟨_, _, .call state address work here⟩
    | stopping => exact ⟨_, _, .stop state address here⟩
    | asking => exact ⟨_, _, .ask state address here⟩
    | finished => exact absurd rfl unfinished
  · exact ⟨_, _, .answer state work (Nat.pos_of_ne_zero waits) good⟩

theorem settled_called (state : DistributedWork) (held : Distributing env root state) (settled : state.Settled) :
    state.calls.length = 1 := by
  have once := held.once
  rw [settled.2, Table.sum_zero _ _ fun address handler found => by rw [settled.1 address handler found]; rfl] at once
  cases flag : state.completed with
  | true => simpa [flag] using once
  | false =>
      by_cases none : state.outstanding = .empty
      · obtain ⟨address, reply, found⟩ := (held.undecided flag).alive none
        cases settled.1 address _ found
      · have some_ : ∃ address, state.outstanding.get address ≠ Option.none := by
          by_contra all
          simp only [not_exists, not_not] at all
          exact none (Table.ext_get _ _ fun address => (all address).trans (Table.get_empty address).symm)
        obtain ⟨address, present⟩ := some_
        cases settled.1 address _ (((held.undecided flag).contacted address).mp present)

theorem work_completes_once (peers : List Endpoint) (state : DistributedWork)
    (path : Trail (DistributedWork.Step env texts root) (fun _ _ => True) (DistributedWork.start peers) state) :
    state.calls.length ≤ 1 ∧ (∀ work ∈ state.calls, workRejected env root work = false) ∧
    (0 < state.asked → state.outstanding = .empty) ∧ (state.Settled → state.calls.length = 1) ∧
    (¬ state.Settled → (∃ work, workRejected env root work = false) →
    ∃ action next, DistributedWork.Step env texts root state action next) ∧
    ∀ action next, DistributedWork.Step env texts root state action next → next.left < state.left := by
  have held := trail_invariant _ _ (Distributing env root) (distributing_start env root peers)
    (fun state action next held _ taken => distributing_step env texts root state action next held taken) path
  have once := held.once
  have most : (if state.completed = true then 1 else 0) ≤ 1 := by split <;> decide
  refine ⟨by omega, held.good, held.asked, settled_called env root state held, ?_, step_left env texts root state⟩
  intro unsettled ⟨work, good⟩
  exact step_possible env texts root state unsettled work good

end Invariant

abbrev sampleWorkStep := DistributedWork.Step sampleEnv (plainTexts (fun _ => 0) fun _ => 0) 0

def sampleReply : PeerReply := .success (some (Ptree.put [] "work" (toStringHex 255)))

-- Two peers, which both answer with good work.
theorem work_completes_once_sample :
    ∃ state, Trail sampleWorkStep (fun _ _ => True) (DistributedWork.start [⟨1, 7076⟩, ⟨2, 7076⟩]) state ∧
    state.Settled ∧ state.calls.length = 1 := by
  have good : workRejected sampleEnv 0#256 255#64 = false := by decide +kernel
  have taken : DistributedWork.accepted sampleEnv (plainTexts (fun _ => 0) fun _ => 0) 0 sampleReply = some 255 := by
    simp [DistributedWork.accepted, sampleReply, good]
  have begun : DistributedWork.start [⟨1, 7076⟩, ⟨2, 7076⟩] =
    ⟨(Table.empty.put 1 7076).put 2 7076, false, (Table.empty.put 1 .contacted).put 2 .contacted, 0, 0, [], []⟩ :=
    if_pos (by decide +kernel)
  have first (handlers : Table (BitVec 128) PeerHandler) (handler other : PeerHandler) :
      ((handlers.put 1 handler).put 2 other).get 1 = some handler := by rw [Table.get_put_ne _ _ _ _ (by decide), Table.get_put_self]
  have second (handlers : Table (BitVec 128) PeerHandler) (handler other : PeerHandler) :
      ((handlers.put 2 handler).put 1 other).get 2 = some handler := by rw [Table.get_put_ne _ _ _ _ (by decide), Table.get_put_self]
  have path : Trail sampleWorkStep (fun _ _ => True) (DistributedWork.start [⟨1, 7076⟩, ⟨2, 7076⟩])
    ⟨(Table.empty.put 1 7076).put 2 7076, false, (Table.empty.put 1 .contacted).put 2 .contacted, 0, 0, [], []⟩ := begun ▸ .start
  have path := path.step _ _ _ trivial (.reply _ 1 sampleReply (first _ _ _))
  have path := path.step _ _ _ trivial (.reply _ 2 sampleReply (second _ _ _))
  have path := path.step _ _ _ trivial (.judge _ 1 _ sampleReply (first _ _ _))
  rw [DistributedWork.judge, taken] at path
  have path := path.step _ _ _ trivial (.judge _ 2 _ sampleReply (second _ _ _))
  rw [DistributedWork.judge, taken] at path
  -- The second one finds the flag set, and has nothing to call.
  have path := path.step _ _ _ trivial (.call _ 1 255 (first _ _ _))
  have path := path.step _ _ _ trivial (.stop _ 2 (second _ _ _))
  have path := path.step _ _ _ trivial (.stop _ 1 (first _ _ _))
  refine ⟨_, path, ?settled, (work_completes_once sampleEnv _ 0 _ _ path).2.2.2.1 ?settled⟩
  refine ⟨fun address handler found => ?_, rfl⟩
  by_cases one : address = 1
  · rw [one, DistributedWork.stop, DistributedWork.handle, Table.get_put_self] at found
    exact (Option.some.inj found).symm
  · by_cases two : address = 2
    · rw [two] at found
      exact Option.some.inj (found.symm.trans (second _ _ _))
    · change (((((((((Table.empty.put 1 _).put 2 _).put 1 _).put 2 _).put 1 _).put 2 _).put 1 _).put 2 _).put 1 _).get
        address = _ at found
      simp only [Table.get_put, if_neg one, if_neg two, Table.get_empty] at found
      cases found

end Rai
