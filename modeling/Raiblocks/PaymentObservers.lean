import Raiblocks.Amounts
import Raiblocks.Kit.Runs
import Raiblocks.Kit.Table

set_option autoImplicit false

namespace Rai

open Kit

inductive PaymentStatus where
  | notAStatus
  | unknown
  | nothing
  | success
deriving DecidableEq, Repr

def PaymentStatus.response : PaymentStatus → Ptree
  | .nothing => Ptree.put [] "status" "nothing".toList
  | .success => Ptree.put [] "status" "success".toList
  | _ => errorResponse "Internal payment error"

inductive Caller where
  | timeout
  | notification
  | wait
deriving DecidableEq, Repr

-- Where a call is: in `observer_action` before and after its lookup, and in `complete` before the flag, before the response and
-- before the locked section.
inductive CallStage where
  | looking
  | observing (amount : Amount)
  | completing (status : PaymentStatus)
  | responding (status : PaymentStatus)
  | erasing
deriving DecidableEq, Repr

structure ObserverCall where
  account : Account
  caller : Caller
  stage : CallStage
deriving DecidableEq, Repr

-- Where `payment_wait` is: in front of the locked section, in its own call of `observer_action`, and at its end.
inductive WaitStage where
  | armed (amount : Amount)
  | acting
  | returned
deriving DecidableEq, Repr

-- `payment_observers`, the flags of the observers, the requests, the calls on all threads, and the responses. A timeout that
-- has not fired is a call that has not begun. After a failed assertion there are no more steps.
structure Payments where
  observers : Table Account Amount
  completed : Account → Bool
  waits : Table Account WaitStage
  calls : List ObserverCall
  responses : List (Account × Ptree)
  failed : Bool

namespace Payments

def start : Payments := ⟨.empty, fun _ => false, .empty, [], [], false⟩

-- `payment_observer::start` arms the timeout before the observer is registered.
def arm (s : Payments) (account : Account) (amount : Amount) : Payments :=
  { s with waits := s.waits.put account (.armed amount), calls := s.calls ++ [⟨account, .timeout, .completing .nothing⟩] }

def register (s : Payments) (account : Account) (amount : Amount) : Payments :=
  match s.observers.get account with
  | some _ => { s with failed := true }
  | none =>
      { s with
        observers := s.observers.put account amount
        waits := s.waits.put account .acting
        calls := s.calls ++ [⟨account, .wait, .looking⟩] }

def notify (s : Payments) (account : Account) : Payments := { s with calls := s.calls ++ [⟨account, .notification, .looking⟩] }

section Calls

variable (s : Payments) (before : List ObserverCall) (call : ObserverCall) (after : List ObserverCall)

def goOn (stage : CallStage) : Payments := { s with calls := before ++ { call with stage := stage } :: after }

def finish : Payments :=
  { s with
    calls := before ++ after
    waits := if call.caller = .wait then s.waits.put call.account .returned else s.waits }

-- One locked section or access of the flag; the balance is the one that `observe` finds.
def advance (balance : Amount) : Payments :=
  match call.stage with
  | .looking =>
      match s.observers.get call.account with
      | some amount => s.goOn before call after (.observing amount)
      | none => s.finish before call after
  | .observing amount => if amount ≤ balance then s.goOn before call after (.completing .success) else s.finish before call after
  | .completing status =>
      if s.completed call.account then s.finish before call after
      else { s.goOn before call after (.responding status) with completed := Function.update s.completed call.account true }
  | .responding status => { s.goOn before call after .erasing with responses := s.responses ++ [(call.account, status.response)] }
  | .erasing =>
      match s.observers.get call.account with
      | some _ => { s.finish before call after with observers := s.observers.del call.account }
      | none => { s with failed := true }

end Calls

def Registered (s : Payments) (account : Account) : Prop := s.waits.get account = some .acting ∨ s.waits.get account = some .returned

def Settled (s : Payments) : Prop := s.calls = [] ∧ ∀ account stage, s.waits.get account = some stage → stage = .returned

end Payments

inductive PaymentAction where
  | wait (account : Account) (amount : Amount)
  | register (account : Account)
  | notify (account : Account)
  | run (call : ObserverCall) (balance : Amount)

-- Requests come for distinct accounts, and notifications at any time.
inductive PaymentStep : Payments → PaymentAction → Payments → Prop where
  | wait (s : Payments) (account : Account) (amount : Amount) (running : s.failed = false) (fresh : s.waits.get account = none) :
      PaymentStep s (.wait account amount) (s.arm account amount)
  | register (s : Payments) (account : Account) (amount : Amount) (running : s.failed = false)
      (armed : s.waits.get account = some (.armed amount)) : PaymentStep s (.register account) (s.register account amount)
  | notify (s : Payments) (account : Account) (running : s.failed = false) : PaymentStep s (.notify account) (s.notify account)
  | run (s : Payments) (before : List ObserverCall) (call : ObserverCall) (after : List ObserverCall) (balance : Amount)
      (running : s.failed = false) (here : s.calls = before ++ call :: after) :
      PaymentStep s (.run call balance) (s.advance before call after balance)

def OnTime (s : Payments) : PaymentAction → Prop
  | .run call _ => call.caller = .timeout → call.stage = .erasing → s.Registered call.account
  | _ => True

def CallStage.owes : CallStage → Nat
  | .responding _ => 1
  | _ => 0

def CallStage.inside : CallStage → Nat
  | .responding _ => 1
  | .erasing => 1
  | _ => 0

def CallStage.left : CallStage → Nat
  | .looking => 5
  | .observing _ => 4
  | .completing _ => 3
  | .responding _ => 2
  | .erasing => 1

def WaitStage.left : WaitStage → Nat
  | .armed _ => 6
  | _ => 0

def Payments.left (s : Payments) : Nat := (s.calls.map fun call => call.stage.left).sum + s.waits.sum fun _ stage => stage.left

def answers (s : Payments) (account : Account) : Nat := s.responses.countP fun response => response.1 = account

-- What is asked of the requests: no failed assertion, never a second response and in the end one, no trace of an observer whose
-- completion is through and whose request has returned; and an end that is reached unless new events come in.
structure Tidy (s : Payments) : Prop where
  running : s.failed = false
  once : ∀ account, answers s account ≤ 1
  cleaned : ∀ account, s.completed account = true → (∀ call ∈ s.calls, call.account = account → call.stage.inside = 0) →
    s.waits.get account = some .returned → s.observers.get account = none
  answered : s.Settled → ∀ account, s.waits.get account ≠ none → answers s account = 1
  goes : ¬ s.Settled → ∃ action next, PaymentStep s action next ∧ OnTime s action ∧ next.left < s.left

section Tallies

variable (f : CallStage → Nat) (account : Account)

def tally (calls : List ObserverCall) : Nat := (calls.map fun call => if call.account = account then f call.stage else 0).sum

@[simp] theorem tally_nil : tally f account [] = 0 := rfl

@[simp] theorem tally_cons (call : ObserverCall) (calls : List ObserverCall) :
    tally f account (call :: calls) = (if call.account = account then f call.stage else 0) + tally f account calls := rfl

@[simp] theorem tally_append (calls others : List ObserverCall) :
    tally f account (calls ++ others) = tally f account calls + tally f account others := by
  simp [tally]

theorem tally_zero (calls : List ObserverCall) (none : ∀ call ∈ calls, call.account = account → f call.stage = 0) :
    tally f account calls = 0 := by
  induction calls with
  | nil => rfl
  | cons call calls ih =>
      obtain ⟨here, rest⟩ := List.forall_mem_cons.mp none
      rw [tally_cons, ih rest]
      split
      · next same => rw [here same]
      · rfl

end Tallies

-- What a caller has behind it: a timeout was armed, and any other call that has found an observer found it registered.
def ObserverCall.Fine (s : Payments) (call : ObserverCall) : Prop :=
  match call.caller with
  | .timeout => s.waits.get call.account ≠ none ∧ call.stage ≠ .looking ∧ ∀ amount, call.stage ≠ .observing amount
  | .notification => call.stage ≠ .looking → s.Registered call.account
  | .wait => s.Registered call.account

-- The flag of an observer is set by the call that then responds and erases, and the observer stays registered until it does.
structure Accounted (s : Payments) (account : Account) : Prop where
  answered : answers s account + tally CallStage.owes account s.calls = if s.completed account then 1 else 0
  inside : tally CallStage.inside account s.calls ≤ if s.completed account then 1 else 0
  present : s.observers.get account ≠ none ↔ s.Registered account ∧
    (s.completed account = true → tally CallStage.inside account s.calls = 1)
  early : ¬ s.Registered account → s.completed account = true → tally CallStage.inside account s.calls = 1

structure Observing (s : Payments) : Prop where
  running : s.failed = false
  kept : ∀ account, Accounted s account
  fine : ∀ call ∈ s.calls, call.Fine s
  acting : ∀ account, s.waits.get account = some .acting → ∃ call ∈ s.calls, call.account = account ∧ call.caller = .wait
  timed : ∀ account, s.waits.get account ≠ none → s.completed account = false → ∃ call ∈ s.calls, call.account = account ∧
    call.caller = .timeout

theorem observing_start : Observing Payments.start where
  running := rfl
  kept := fun account => ⟨rfl, Nat.le_refl 0, by simp [Payments.start, Payments.Registered], fun _ set => Bool.noConfusion set⟩
  fine := fun _ member => absurd member List.not_mem_nil
  acting := fun account acting => by simp [Payments.start] at acting
  timed := fun account armed => by simp [Payments.start] at armed

section Steps

variable {s t : Payments}

theorem call_fine_mono (known : ∀ account, s.waits.get account ≠ none → t.waits.get account ≠ none)
    (registered : ∀ account, s.Registered account → t.Registered account) (call : ObserverCall) (fine : call.Fine s) : call.Fine t := by
  obtain ⟨account, caller, stage⟩ := call
  cases caller with
  | timeout => exact ⟨known account fine.1, fine.2⟩
  | notification => exact fun found => registered account (fine found)
  | wait => exact registered account fine

theorem observing_called (held : Observing s) (call : ObserverCall) (owes : call.stage.owes = 0) (outside : call.stage.inside = 0)
    (calls : t.calls = s.calls ++ [call]) (running : t.failed = s.failed) (completed : t.completed = s.completed)
    (responses : t.responses = s.responses) (known : ∀ account, s.waits.get account ≠ none → t.waits.get account ≠ none)
    (registered : ∀ account, s.Registered account → t.Registered account)
    (present : ∀ account, t.observers.get account ≠ none ↔
      t.Registered account ∧ (s.completed account = true → tally CallStage.inside account s.calls = 1))
    (fine : call.Fine t)
    (acting : ∀ account, t.waits.get account = some .acting → s.waits.get account = some .acting ∨ call.account = account ∧
    call.caller = .wait)
    (timed : ∀ account, t.waits.get account ≠ none → s.waits.get account ≠ none ∨ call.account = account ∧ call.caller = .timeout) :
    Observing t := by
  have tallies (f : CallStage → Nat) (plain : f call.stage = 0) (account : Account) :
    tally f account t.calls = tally f account s.calls := by
    simp [calls, plain]
  have among (account : Account) (caller : Caller) (found : (∃ other ∈ s.calls, other.account = account ∧ other.caller = caller) ∨
      call.account = account ∧ call.caller = caller) : ∃ other ∈ t.calls, other.account = account ∧ other.caller = caller := by
    rw [calls]
    rcases found with ⟨other, member, own⟩ | own
    · exact ⟨other, List.mem_append_left _ member, own⟩
    · exact ⟨call, List.mem_append_right _ (List.mem_singleton_self _), own⟩
  refine ⟨running.trans held.running, fun account => ⟨?_, ?_, ?_, ?_⟩, fun other member => ?_, fun account now => ?_,
    fun account now clear => ?_⟩
  · rw [tallies CallStage.owes owes, answers, responses, completed]
    exact (held.kept account).answered
  · rw [tallies CallStage.inside outside, completed]
    exact (held.kept account).inside
  · rw [tallies CallStage.inside outside, completed]
    exact present account
  · rw [tallies CallStage.inside outside, completed]
    exact fun early => (held.kept account).early fun before => early (registered account before)
  · rw [calls] at member
    rcases List.mem_append.mp member with old | new
    · exact call_fine_mono known registered other (held.fine other old)
    · rw [List.mem_singleton.mp new]
      exact fine
  · exact among account .wait ((acting account now).imp_left (held.acting account))
  · rw [completed] at clear
    exact among account .timeout ((timed account now).imp_left fun before => held.timed account before clear)

theorem waits_put (account other : Account) (stage : WaitStage) (before : s.waits.get other ≠ none) :
    (s.waits.put account stage).get other ≠ none := by
  rw [Table.get_put]
  split
  · exact Option.some_ne_none _
  · exact before

theorem observing_notify (account : Account) (held : Observing s) : Observing (s.notify account) := by
  refine observing_called held ⟨account, .notification, .looking⟩ rfl rfl rfl rfl rfl rfl (fun _ => id) (fun _ => id)
    (fun other => (held.kept other).present) (fun found => absurd rfl found) (fun _ => .inl) fun _ => .inl

theorem observing_arm (account : Account) (amount : Amount) (fresh : s.waits.get account = none) (held : Observing s) :
    Observing (s.arm account amount) := by
  have registered (other : Account) : (s.arm account amount).Registered other ↔ s.Registered other := by
    by_cases same : other = account
    · subst same
      simp [Payments.Registered, Payments.arm, fresh]
    · simp [Payments.Registered, Payments.arm, Table.get_put_ne _ _ _ _ same]
  refine observing_called held ⟨account, .timeout, .completing .nothing⟩ rfl rfl rfl rfl rfl rfl
    (fun other => waits_put account other _)
    (fun other => (registered other).mpr) (fun other => ?_) ⟨?_, CallStage.noConfusion, fun _ => CallStage.noConfusion⟩
      (fun other now => ?_)
    fun other now => ?_
  · rw [registered]
    exact (held.kept other).present
  · simp [Payments.arm]
  · rcases Table.put_some _ _ _ _ _ now with ⟨_, same⟩ | before
    · cases same
    · exact .inl before
  · by_cases same : other = account
    · exact .inr ⟨same.symm, rfl⟩
    · rw [Payments.arm, Table.get_put_ne _ _ _ _ same] at now
      exact .inl now

theorem observing_register (account : Account) (amount : Amount) (armed : s.waits.get account = some (.armed amount))
    (held : Observing s) :
    Observing (s.register account amount) := by
  have unregistered : ¬ s.Registered account := by
    rw [Payments.Registered, armed]
    simp
  have absent : s.observers.get account = none := by
    by_contra found
    exact unregistered ((held.kept account).present.mp found).1
  unfold Payments.register
  rw [absent]
  refine observing_called held ⟨account, .wait, .looking⟩ rfl rfl rfl rfl rfl rfl (fun other => waits_put account other _)
    (fun other before => ?_)
    (fun other => ?_) ?_ (fun other now => ?_) fun other now => ?_
  · have different : other ≠ account := by
      rintro rfl
      exact unregistered before
    simpa [Payments.Registered, Table.get_put_ne _ _ _ _ different] using before
  · by_cases same : other = account
    · subst same
      simpa [Payments.Registered] using (held.kept other).early unregistered
    · simpa [Payments.Registered, Table.get_put_ne _ _ _ _ same] using (held.kept other).present
  · exact .inl (Table.get_put_self _ _ _)
  · rcases Table.put_some _ _ _ _ _ now with ⟨same, _⟩ | before
    · exact .inr ⟨same.symm, rfl⟩
    · exact .inl before
  · by_cases same : other = account
    · subst same
      exact .inl (by simp [armed])
    · rw [Table.get_put_ne _ _ _ _ same] at now
      exact .inl now

section Running

variable {before after : List ObserverCall} {call : ObserverCall} (here : s.calls = before ++ call :: after) (held : Observing s)
include here held

omit held in
theorem ran_tally {next : Option CallStage}
    (calls : t.calls = before ++ (next.map fun stage => { call with stage := stage }).toList ++ after) (f : CallStage → Nat)
    (account : Account) (different : account ≠ call.account) : tally f account t.calls = tally f account s.calls := by
  cases next <;> simp [calls, here, different.symm]

omit held in
theorem ran_among {next : Option CallStage}
    (calls : t.calls = before ++ (next.map fun stage => { call with stage := stage }).toList ++ after) (account : Account)
    (caller : Caller) (found : ∃ other ∈ s.calls, other.account = account ∧ other.caller = caller)
    (stays : next = none → ¬ (call.account = account ∧ call.caller = caller)) :
    ∃ other ∈ t.calls, other.account = account ∧ other.caller = caller := by
  obtain ⟨other, member, met⟩ := found
  rw [here, List.mem_append, List.mem_cons] at member
  rw [calls]
  rcases member with early | same | late
  · exact ⟨other, List.mem_append_left _ (List.mem_append_left _ early), met⟩
  · rw [same] at met
    cases next with
    | none => exact absurd met (stays rfl)
    | some stage => exact ⟨{ call with stage := stage }, by simp, met⟩
  · exact ⟨other, List.mem_append_right _ late, met⟩

theorem observing_ran (next : Option CallStage)
    (calls : t.calls = before ++ (next.map fun stage => { call with stage := stage }).toList ++ after) (running : t.failed = false)
    (elsewhere : ∀ account, account ≠ call.account → t.completed account = s.completed account ∧ answers t account = answers s account ∧
      t.observers.get account = s.observers.get account)
    (known : ∀ account, t.waits.get account ≠ none ↔ s.waits.get account ≠ none)
    (registered : ∀ account, t.Registered account ↔ s.Registered account) (own : Accounted t call.account)
    (fine : ∀ stage, next = some stage → ObserverCall.Fine t { call with stage := stage })
    (acting : ∀ account, t.waits.get account = some .acting → s.waits.get account = some .acting ∧
      (next = none → call.caller = .wait → account ≠ call.account))
    (timed : t.completed call.account = false → s.completed call.account = false ∧ (next = none → call.caller ≠ .timeout)) :
    Observing t := by
  have apart := ran_tally here calls
  refine ⟨running, fun account => ?_, fun other member => ?_, fun account now => ?_, fun account now clear => ?_⟩
  · by_cases same : account = call.account
    · exact same ▸ own
    · obtain ⟨completed, answered, observers⟩ := elsewhere account same
      refine ⟨?_, ?_, ?_, ?_⟩
      · rw [apart _ account same, completed, answered]
        exact (held.kept account).answered
      · rw [apart _ account same, completed]
        exact (held.kept account).inside
      · rw [apart _ account same, completed, observers, registered]
        exact (held.kept account).present
      · rw [apart _ account same, completed, registered]
        exact (held.kept account).early
  · rw [calls, List.mem_append, List.mem_append] at member
    have old (found : other ∈ s.calls) : other.Fine t :=
      call_fine_mono (fun account => (known account).mpr) (fun account => (registered account).mpr) other (held.fine other found)
    rcases member with (early | new) | late
    · exact old (by rw [here]; exact List.mem_append_left _ early)
    · cases next with
      | none => cases new
      | some stage =>
          rw [List.mem_singleton.mp new]
          exact fine stage rfl
    · exact old (by rw [here]; exact List.mem_append_right _ (List.mem_cons_of_mem _ late))
  · obtain ⟨was, stays⟩ := acting account now
    exact ran_among here calls account .wait (held.acting account was) fun ended both => stays ended both.2 both.1.symm
  · have was : s.completed account = false := by
      by_cases same : account = call.account
      · subst same
        exact (timed clear).1
      · rw [← (elsewhere account same).1]
        exact clear
    refine ran_among here calls account .timeout (held.timed account ((known account).mp now) was) ?_
    rintro ended ⟨rfl, caller⟩
    exact (timed clear).2 ended caller

theorem own_fine : call.Fine s := held.fine call (by rw [here]; exact List.mem_append_right _ List.mem_cons_self)

omit held in
theorem own_tally (f : CallStage → Nat) :
    tally f call.account s.calls = tally f call.account before + (f call.stage + tally f call.account after) := by simp [here]

omit held in
theorem going_tally (stage : CallStage) (f : CallStage → Nat) :
    tally f call.account (s.goOn before call after stage).calls + f call.stage = tally f call.account s.calls + f stage := by
  rw [own_tally here f]
  simp only [Payments.goOn, tally_append, tally_cons, if_true]
  omega

omit held in
theorem finished_tally (f : CallStage → Nat) :
    tally f call.account (s.finish before call after).calls + f call.stage = tally f call.account s.calls := by
  rw [own_tally here f]
  simp only [Payments.finish, tally_append]
  omega

theorem observing_going (stage : CallStage) (owes : stage.owes = call.stage.owes) (inside : stage.inside = call.stage.inside)
    (fine : ObserverCall.Fine s { call with stage := stage }) : Observing (s.goOn before call after stage) := by
  have owing := going_tally here stage CallStage.owes
  have within := going_tally here stage CallStage.inside
  rw [owes, Nat.add_right_cancel_iff] at owing
  rw [inside, Nat.add_right_cancel_iff] at within
  obtain ⟨answered, inside, present, early⟩ := held.kept call.account
  refine observing_ran here held (some stage) (by simp [Payments.goOn]) held.running (fun _ _ => ⟨rfl, rfl, rfl⟩) (fun _ => Iff.rfl)
    (fun _ => Iff.rfl)
    ⟨?_, ?_, ?_, ?_⟩ (fun other same => Option.some.inj same ▸ fine)
      (fun _ acting => ⟨acting, fun ended => absurd ended (Option.some_ne_none stage)⟩)
    fun clear => ⟨clear, fun ended => absurd ended (Option.some_ne_none stage)⟩
  · rw [owing]
    exact answered
  · rw [within]
    exact inside
  · rw [within]
    exact present
  · rw [within]
    exact early

theorem finished_waits (account : Account) :
    ((s.finish before call after).waits.get account ≠ none ↔ s.waits.get account ≠ none) ∧
    ((s.finish before call after).Registered account ↔ s.Registered account) ∧
    ((s.finish before call after).waits.get account = some .acting → s.waits.get account = some .acting ∧
    (call.caller = .wait → account ≠ call.account)) := by
  have fine := own_fine here held
  unfold Payments.finish Payments.Registered
  by_cases own : call.caller = .wait ∧ account = call.account
  · obtain ⟨caller, rfl⟩ := own
    have registered : s.Registered call.account := by rwa [ObserverCall.Fine, caller] at fine
    have known : s.waits.get call.account ≠ none := by
      rcases registered with acting | returned
      · simp [acting]
      · simp [returned]
    rw [if_pos caller, Table.get_put_self]
    exact ⟨iff_of_true (Option.some_ne_none _) known, iff_of_true (.inr rfl) registered, fun acting => by cases acting⟩
  · have same : (if call.caller = .wait then s.waits.put call.account .returned else s.waits).get account = s.waits.get account := by
      split
      · next caller => exact Table.get_put_ne _ _ _ _ fun equal => own ⟨caller, equal⟩
      · rfl
    rw [same]
    exact ⟨Iff.rfl, Iff.rfl, fun acting => ⟨acting, fun caller equal => own ⟨caller, equal⟩⟩⟩

theorem observing_finished (owes : call.stage.owes = 0) (outside : call.stage.inside = 0)
    (timeout : call.caller = .timeout → s.completed call.account = true) : Observing (s.finish before call after) := by
  have owing := finished_tally here CallStage.owes
  have within := finished_tally here CallStage.inside
  rw [owes, Nat.add_zero] at owing
  rw [outside, Nat.add_zero] at within
  have waits := finished_waits here held
  obtain ⟨answered, inside, present, early⟩ := held.kept call.account
  refine observing_ran here held none (by simp [Payments.finish]) held.running (fun _ _ => ⟨rfl, rfl, rfl⟩)
    (fun account => (waits account).1)
    (fun account => (waits account).2.1) ⟨?_, ?_, ?_, ?_⟩ (fun _ same => absurd same.symm (Option.some_ne_none _))
    (fun account acting => ⟨((waits account).2.2 acting).1, fun _ => ((waits account).2.2 acting).2⟩) fun clear =>
      ⟨clear, fun _ caller => ?_⟩
  · rw [owing]
    exact answered
  · rw [within]
    exact inside
  · rw [within, (waits call.account).2.1]
    exact present
  · rw [within, (waits call.account).2.1]
    exact early
  · exact Bool.noConfusion ((timeout caller).symm.trans clear)

theorem fine_further (stage : CallStage) (found : call.stage ≠ .looking) (further : stage ≠ .looking)
    (known : ∀ amount, stage ≠ .observing amount) :
    ObserverCall.Fine s { call with stage := stage } := by
  have fine := own_fine here held
  unfold ObserverCall.Fine at fine ⊢
  cases caller : call.caller with
  | timeout =>
      rw [caller] at fine
      exact ⟨fine.1, further, known⟩
  | notification =>
      rw [caller] at fine
      exact fun _ => fine found
  | wait =>
      rw [caller] at fine
      exact fine

theorem observing_flagged (status : PaymentStatus) (completing : call.stage = .completing status)
    (clear : s.completed call.account = false) :
    Observing { s.goOn before call after (.responding status) with completed := Function.update s.completed call.account true } := by
  have owing := going_tally here (.responding status) CallStage.owes
  have within := going_tally here (.responding status) CallStage.inside
  obtain ⟨answered, inside, present, _⟩ := held.kept call.account
  rw [completing] at owing within
  simp only [clear, Bool.false_eq_true, if_false, false_implies, and_true] at answered inside present
  simp only [CallStage.owes, CallStage.inside, Nat.add_zero] at owing within
  have fine := fine_further here held (.responding status) (by simp [completing]) CallStage.noConfusion fun _ => CallStage.noConfusion
  have one : tally CallStage.inside call.account (s.goOn before call after (.responding status)).calls = 1 := by omega
  have set : Function.update s.completed call.account true call.account = true := Function.update_self ..
  refine observing_ran here held (some (.responding status)) (by simp [Payments.goOn]) held.running
    (fun _ different => ⟨Function.update_of_ne different _ _, rfl, rfl⟩) (fun _ => Iff.rfl) (fun _ => Iff.rfl)
    ⟨?_, ?_, ?_, fun _ _ => one⟩
    (fun other same => Option.some.inj same ▸ fine) (fun _ acting => ⟨acting, fun ended => absurd ended (Option.some_ne_none _)⟩)
    fun unset => ?_
  · refine Eq.trans ?_ (if_pos set).symm
    change answers s call.account + tally CallStage.owes call.account (s.goOn before call after (.responding status)).calls = 1
    omega
  · exact (Nat.le_of_eq one).trans (Nat.le_of_eq (if_pos set).symm)
  · exact present.trans (and_iff_left fun _ => one).symm
  · exact absurd (set.symm.trans unset) Bool.noConfusion

theorem observing_responded (status : PaymentStatus) (responding : call.stage = .responding status) :
    Observing { s.goOn before call after .erasing with responses := s.responses ++ [(call.account, status.response)] } := by
  have owing := going_tally here .erasing CallStage.owes
  have within := going_tally here .erasing CallStage.inside
  obtain ⟨answered, inside, present, early⟩ := held.kept call.account
  rw [responding] at owing within
  simp only [CallStage.owes, CallStage.inside, Nat.add_zero, Nat.add_right_cancel_iff] at owing within
  have fine := fine_further here held .erasing (by simp [responding]) CallStage.noConfusion fun _ => CallStage.noConfusion
  refine observing_ran here held (some .erasing) (by simp [Payments.goOn]) held.running (fun other different => ⟨rfl, ?_, rfl⟩)
    (fun _ => Iff.rfl)
    (fun _ => Iff.rfl) ⟨?_, ?_, ?_, ?_⟩ (fun other same => Option.some.inj same ▸ fine)
    (fun _ acting => ⟨acting, fun ended => absurd ended (Option.some_ne_none _)⟩) fun clear =>
      ⟨clear, fun ended => absurd ended (Option.some_ne_none _)⟩
  · simp [answers, different.symm]
  · refine Eq.trans ?_ answered
    simp only [answers, List.countP_append, List.countP_singleton, decide_true, if_true]
    omega
  · exact within ▸ inside
  · exact within ▸ present
  · exact within ▸ early

-- The erasing call is the one that set the flag, so the observer is there and goes.
theorem erasing_present (erasing : call.stage = .erasing) (registered : s.Registered call.account) :
    s.observers.get call.account ≠ none := by
  have within := own_tally here CallStage.inside
  obtain ⟨_, inside, present, _⟩ := held.kept call.account
  rw [erasing] at within
  simp only [CallStage.inside] at within
  refine present.mpr ⟨registered, fun set => ?_⟩
  rw [set, if_pos rfl] at inside
  omega

theorem erasing_completed (erasing : call.stage = .erasing) : s.completed call.account = true := by
  have within := own_tally here CallStage.inside
  have inside := (held.kept call.account).inside
  rw [erasing] at within
  simp only [CallStage.inside] at within
  by_contra clear
  rw [if_neg clear] at inside
  omega

theorem observing_erased (erasing : call.stage = .erasing) (registered : s.Registered call.account) :
    Observing { s.finish before call after with observers := s.observers.del call.account } := by
  have owing := finished_tally here CallStage.owes
  have within := finished_tally here CallStage.inside
  have waits := finished_waits here held
  have set := erasing_completed here held erasing
  obtain ⟨answered, inside, _, _⟩ := held.kept call.account
  rw [erasing] at owing within
  simp only [CallStage.owes, CallStage.inside, Nat.add_zero] at owing within
  rw [set, if_pos rfl] at inside
  have noneLeft : tally CallStage.inside call.account (s.finish before call after).calls = 0 := by omega
  refine observing_ran here held none (by simp [Payments.finish]) held.running
    (fun other different => ⟨rfl, rfl, Table.get_del_ne _ _ _ different⟩)
    (fun account => (waits account).1) (fun account => (waits account).2.1) ⟨?_, ?_, ?_, ?_⟩
      (fun _ same => absurd same.symm (Option.some_ne_none _))
    (fun account acting => ⟨((waits account).2.2 acting).1, fun _ => ((waits account).2.2 acting).2⟩)
    fun clear => absurd (set.symm.trans clear) Bool.noConfusion
  · exact owing ▸ answered
  · exact (Nat.le_of_eq noneLeft).trans (Nat.zero_le _)
  · refine iff_of_false (not_not.mpr (Table.get_del_self _ _)) fun both => ?_
    have one := both.2 set
    exact absurd (noneLeft.symm.trans one) (by decide)
  · intro unregistered
    exact absurd ((waits call.account).2.1.mpr registered) unregistered

theorem observing_run (balance : Amount) (onTime : OnTime s (.run call balance)) : Observing (s.advance before call after balance) := by
  have fine := own_fine here held
  unfold Payments.advance
  cases stage : call.stage with
  | looking =>
      have caller : call.caller ≠ .timeout := by
        intro caller
        rw [ObserverCall.Fine, caller] at fine
        exact fine.2.1 stage
      cases found : s.observers.get call.account with
      | none => exact observing_finished here held (by rw [stage]; rfl) (by rw [stage]; rfl) fun timeout => absurd timeout caller
      | some amount =>
          have registered := ((held.kept call.account).present.mp (by simp [found])).1
          refine observing_going here held (.observing amount) (by rw [stage]; rfl) (by rw [stage]; rfl) ?_
          unfold ObserverCall.Fine
          cases other : call.caller with
          | timeout => exact absurd other caller
          | notification => exact fun _ => registered
          | wait => exact registered
  | observing amount =>
      have caller : call.caller ≠ .timeout := by
        intro caller
        rw [ObserverCall.Fine, caller] at fine
        exact fine.2.2 amount stage
      dsimp only
      split
      · exact observing_going here held (.completing .success) (by rw [stage]; rfl) (by rw [stage]; rfl)
          (fine_further here held _ (by simp [stage]) CallStage.noConfusion fun _ => CallStage.noConfusion)
      · exact observing_finished here held (by rw [stage]; rfl) (by rw [stage]; rfl) fun timeout => absurd timeout caller
  | completing status =>
      dsimp only
      split
      · next set => exact observing_finished here held (by rw [stage]; rfl) (by rw [stage]; rfl) fun _ => set
      · next clear => exact observing_flagged here held status stage (Bool.eq_false_iff.mpr clear)
  | responding status => exact observing_responded here held status stage
  | erasing =>
      have registered : s.Registered call.account := by
        unfold ObserverCall.Fine at fine
        cases caller : call.caller with
        | timeout => exact onTime caller stage
        | notification =>
            rw [caller] at fine
            exact fine (by simp [stage])
        | wait => rwa [caller] at fine
      cases found : s.observers.get call.account with
      | none => exact absurd found (erasing_present here held stage registered)
      | some amount => exact observing_erased here held stage registered

omit here in
theorem early_fails (balance : Amount) (late : ¬ OnTime s (.run call balance)) :
    (s.advance before call after balance).failed = true := by
  simp only [OnTime, Classical.not_imp] at late
  obtain ⟨_, erasing, unregistered⟩ := late
  have absent : s.observers.get call.account = none := by
    by_contra found
    exact unregistered ((held.kept call.account).present.mp found).1
  simp [Payments.advance, erasing, absent]

omit held in
theorem going_left (stage : CallStage) (less : stage.left < call.stage.left) : (s.goOn before call after stage).left < s.left := by
  unfold Payments.left
  rw [here]
  simp only [Payments.goOn, List.map_append, List.map_cons, List.sum_append, List.sum_cons]
  omega

theorem finished_left : (s.finish before call after).left < s.left := by
  have positive : 0 < call.stage.left := by cases call.stage <;> simp [CallStage.left]
  have waits : ((s.finish before call after).waits.sum fun _ stage => stage.left) = s.waits.sum fun _ stage => stage.left := by
    have fine := own_fine here held
    unfold Payments.finish
    dsimp only
    split
    · next caller =>
        rw [ObserverCall.Fine, caller] at fine
        rcases fine with acting | returned
        · exact Table.sum_replace (fun _ stage => WaitStage.left stage) s.waits .returned acting
        · rw [Table.put_same _ _ _ returned]
    · rfl
  unfold Payments.left
  rw [waits, here]
  simp only [Payments.finish, List.map_append, List.map_cons, List.sum_append, List.sum_cons]
  omega

theorem run_left (balance : Amount) (running : (s.advance before call after balance).failed = false) :
    (s.advance before call after balance).left < s.left := by
  have going (stage : CallStage) := going_left here stage
  have finished := finished_left here held
  unfold Payments.advance at running ⊢
  cases stage : call.stage with
  | looking =>
      dsimp only
      split
      · exact going _ (by simp [stage, CallStage.left])
      · exact finished
  | observing amount =>
      dsimp only
      split
      · exact going _ (by simp [stage, CallStage.left])
      · exact finished
  | completing status =>
      dsimp only
      split
      · exact finished
      · exact going (.responding status) (by simp [stage, CallStage.left])
  | responding status => exact going .erasing (by simp [stage, CallStage.left])
  | erasing =>
      rw [stage] at running
      dsimp only at running ⊢
      split at running
      · exact finished
      · cases running

end Running

theorem register_left (account : Account) (amount : Amount) (armed : s.waits.get account = some (.armed amount))
    (absent : s.observers.get account = none) : (s.register account amount).left < s.left := by
  have waits : ((s.waits.put account .acting).sum fun _ stage => stage.left) + 6 = s.waits.sum fun _ stage => stage.left :=
    Table.sum_replace (fun _ stage => WaitStage.left stage) s.waits .acting armed
  have looking : CallStage.looking.left = 5 := rfl
  unfold Payments.left Payments.register
  rw [absent]
  simp only [List.map_append, List.map_cons, List.map_nil, List.sum_append, List.sum_cons, List.sum_nil, looking]
  omega

theorem observing_step (action : PaymentAction) (held : Observing s) (onTime : OnTime s action)
    (taken : PaymentStep s action t) : Observing t := by
  cases taken with
  | wait account amount _ fresh => exact observing_arm account amount fresh held
  | register account amount _ armed => exact observing_register account amount armed held
  | notify account _ => exact observing_notify account held
  | run before call after balance _ here => exact observing_run here held balance onTime

-- While the requests are not all settled, one of them or a call can go on: a request that has not registered its observer does so.
theorem unsettled_goes (held : Observing s) (unsettled : ¬ s.Settled) :
    ∃ action next, PaymentStep s action next ∧ OnTime s action ∧ next.left < s.left := by
  by_cases waiting : ∃ account amount, s.waits.get account = some (.armed amount)
  · obtain ⟨account, amount, armed⟩ := waiting
    have absent : s.observers.get account = none := by
      by_contra found
      rcases ((held.kept account).present.mp found).1 with acting | returned
      · cases armed.symm.trans acting
      · cases armed.symm.trans returned
    exact ⟨_, _, .register s account amount held.running armed, trivial, register_left account amount armed absent⟩
  have registered (account : Account) (known : s.waits.get account ≠ none) : s.Registered account := by
    obtain ⟨stage, found⟩ := Option.ne_none_iff_exists'.mp known
    cases stage with
    | armed amount => exact absurd ⟨account, amount, found⟩ waiting
    | acting => exact .inl found
    | returned => exact .inr found
  cases calls : s.calls with
  | nil =>
      refine absurd ⟨calls, fun account stage found => ?_⟩ unsettled
      cases stage with
      | armed amount => exact absurd ⟨account, amount, found⟩ waiting
      | acting =>
          obtain ⟨call, member, _⟩ := held.acting account found
          rw [calls] at member
          cases member
      | returned => rfl
  | cons call rest =>
      have here : s.calls = [] ++ call :: rest := calls
      have onTime : OnTime s (.run call 0) := by
        intro caller _
        have fine := own_fine here held
        rw [ObserverCall.Fine, caller] at fine
        exact registered call.account fine.1
      have next := observing_run here held 0 onTime
      exact ⟨_, _, .run s [] call rest 0 held.running here, onTime, run_left here held 0 next.running⟩

theorem observing_tidy (held : Observing s) : Tidy s where
  running := held.running
  once := fun account => by
    have answered := (held.kept account).answered
    split at answered <;> omega
  cleaned := fun account completed through returned => by
    by_contra found
    have one := ((held.kept account).present.mp found).2 completed
    rw [tally_zero CallStage.inside account s.calls through] at one
    cases one
  answered := fun settled account known => by
    have answered := (held.kept account).answered
    rw [settled.1, tally_nil, Nat.add_zero] at answered
    cases completed : s.completed account with
    | true => rwa [completed, if_pos rfl] at answered
    | false =>
        obtain ⟨call, member, _⟩ := held.timed account known completed
        rw [settled.1] at member
        cases member
  goes := unsettled_goes held

end Steps

/-- The requests are tidy exactly in the runs in which no timeout overtakes the registration of its observer. -/
theorem payments_tidy_iff (t : Payments) (path : Trail PaymentStep (fun _ _ => True) Payments.start t) :
    Tidy t ↔ Trail PaymentStep OnTime Payments.start t := by
  have kept (state : Payments) (punctual : Trail PaymentStep OnTime Payments.start state) : Observing state :=
    trail_invariant PaymentStep OnTime Observing observing_start
      (fun _ action _ held onTime taken => observing_step action held onTime taken) punctual
  constructor
  · intro tidy
    have running := tidy.running
    clear tidy
    induction path with
    | start => exact .start
    | step s action t _ _ taken ih =>
        have before : s.failed = false := by cases taken <;> assumption
        have punctual := ih before
        refine .step s action t punctual ?_ taken
        cases taken with
        | run prior call after balance _ here =>
            by_contra late
            have failed : (s.advance prior call after balance).failed = true := early_fails (kept s punctual) balance late
            rw [running] at failed
            cases failed
        | _ => trivial
  · intro punctual
    exact observing_tidy (kept t punctual)

-- A request for account 7 whose amount is there at once, and its timeout, which comes last.
theorem payments_tidy_sample : ∃ t, Trail PaymentStep OnTime Payments.start t ∧ t.Settled ∧
    t.responses = [(7, PaymentStatus.success.response)] ∧
    Tidy t := by
  have path : Trail PaymentStep OnTime Payments.start Payments.start := .start
  have path := path.step _ (.wait 7 5) _ (by simp [OnTime]) (.wait _ 7 5 rfl rfl)
  have path := path.step _ (.register 7) _ (by simp [OnTime]) (.register _ 7 5 rfl rfl)
  have path :=
    path.step _ (.run ⟨7, .wait, .looking⟩ 0) _ (by simp [OnTime]) (.run _ [⟨7, .timeout, .completing .nothing⟩] _ [] 0 rfl rfl)
  have path := path.step _ (.run ⟨7, .wait, .observing 5⟩ 9) _ (by simp [OnTime])
    (.run _ [⟨7, .timeout, .completing .nothing⟩] _ [] 9 rfl rfl)
  have path := path.step _ (.run ⟨7, .wait, .completing .success⟩ 0) _ (by simp [OnTime])
    (.run _ [⟨7, .timeout, .completing .nothing⟩] _ [] 0 rfl rfl)
  have path := path.step _ (.run ⟨7, .wait, .responding .success⟩ 0) _ (by simp [OnTime])
    (.run _ [⟨7, .timeout, .completing .nothing⟩] _ [] 0 rfl rfl)
  have path :=
    path.step _ (.run ⟨7, .wait, .erasing⟩ 0) _ (by simp [OnTime]) (.run _ [⟨7, .timeout, .completing .nothing⟩] _ [] 0 rfl rfl)
  have path := path.step _ (.run ⟨7, .timeout, .completing .nothing⟩ 0) _ (by simp [OnTime]) (.run _ [] _ [] 0 rfl rfl)
  have any := trail_invariant _ _ (Trail PaymentStep (fun _ _ => True) Payments.start) .start
    (fun s action t before _ taken => before.step s action t trivial taken) path
  refine ⟨_, path, ⟨rfl, ?_⟩, rfl, (payments_tidy_iff _ any).mpr path⟩
  intro account stage found
  change (((Table.empty.put 7 _).put 7 _).put 7 WaitStage.returned).get account = some stage at found
  rw [Table.put_put, Table.put_put] at found
  rcases Table.put_some _ _ _ _ _ found with ⟨_, returned⟩ | none
  · exact returned
  · rw [Table.get_empty] at none
    cases none

-- The timeout fires before the observer is registered: it answers and then fails its assertion.
theorem timeout_overtakes : ∃ t, Trail PaymentStep (fun _ _ => True) Payments.start t ∧ t.failed = true ∧
    t.responses = [(7, PaymentStatus.nothing.response)] ∧ ¬ Tidy t := by
  have path : Trail PaymentStep (fun _ _ => True) Payments.start Payments.start := .start
  have path := path.step _ (.wait 7 5) _ trivial (.wait _ 7 5 rfl rfl)
  have path := path.step _ (.run ⟨7, .timeout, .completing .nothing⟩ 0) _ trivial (.run _ [] _ [] 0 rfl rfl)
  have path := path.step _ (.run ⟨7, .timeout, .responding .nothing⟩ 0) _ trivial (.run _ [] _ [] 0 rfl rfl)
  have path := path.step _ (.run ⟨7, .timeout, .erasing⟩ 0) _ trivial (.run _ [] _ [] 0 rfl rfl)
  refine ⟨_, path, rfl, rfl, fun tidy => ?_⟩
  cases tidy.running

end Rai
