import Raiblocks.Processor

set_option autoImplicit false

namespace Rai

-- Where the thread of the block processor is. It is `woken` when it has been notified and not yet got the mutex.
inductive ProcessorPlace where
  | loop
  | processing (batch : List BlockProcessorItem)
  | waiting
  | woken
  | done

@[grind =] def ProcessorPlace.batch : ProcessorPlace → List BlockProcessorItem
  | .processing batch => batch
  | _ => []

-- `block_processor`, with the callers of `flush` that sleep, the items added and processed so far, and whether the thread has
-- ever waited.
structure BlockProcessor where
  blocks : List BlockProcessorItem
  stopped : Bool
  idle : Bool
  place : ProcessorPlace
  flushing : Nat
  added : List BlockProcessorItem
  processed : List BlockProcessorItem
  rested : Bool

-- What a thread does while it holds the mutex. `wake` and `retry` are spurious wake-ups, of the thread and of a caller of `flush`.
inductive ProcessorAction where
  | add (item : BlockProcessorItem)
  | flush
  | stop
  | run
  | wake
  | retry

namespace BlockProcessor

variable (processor : BlockProcessor)

def fresh : BlockProcessor := ⟨[], false, true, .loop, 0, [], [], false⟩

def wake : BlockProcessor :=
  match processor.place with
  | .waiting => { processor with place := .woken }
  | _ => processor

def notifyAll : BlockProcessor := wake { processor with flushing := 0 }

def add (item : BlockProcessorItem) : BlockProcessor :=
  notifyAll { processor with blocks := processor.blocks ++ [item], added := processor.added ++ [item] }

def flushes : Bool := processor.stopped || processor.blocks.isEmpty && processor.idle

def flush : BlockProcessor := if processor.flushes then processor else { processor with flushing := processor.flushing + 1 }

def stop : BlockProcessor := notifyAll { processor with stopped := true }

-- The loop of `process_blocks` from its head to where the mutex is given up.
def turn : BlockProcessor :=
  if processor.stopped then { processor with place := .done }
  else if processor.blocks.isEmpty then { processor.notifyAll with idle := true, place := .waiting, rested := true }
  else { processor with blocks := [], place := .processing processor.blocks }

def processBlocks : BlockProcessor :=
  match processor.place with
  | .loop => processor.turn
  | .processing batch => turn { processor with processed := processor.processed ++ batch }
  | .woken => turn { processor with idle := false }
  | _ => processor

def step : ProcessorAction → BlockProcessor
  | .add item => processor.add item
  | .flush => processor.flush
  | .stop => processor.stop
  | .run => processor.processBlocks
  | .wake => processor.wake
  | .retry => { processor with flushing := processor.flushing - 1 }

def runs (actions : List ProcessorAction) : BlockProcessor := actions.foldl step processor

structure Sound : Prop where
  order : processor.processed ++ processor.place.batch ++ processor.blocks = processor.added
  waits : processor.place = .waiting → processor.blocks = [] ∧ processor.idle = true ∧ processor.stopped = false
  ended : processor.place = .done → processor.stopped = true
  first : processor.place = .loop → processor.rested = false
  busy : ∀ batch, processor.place = .processing batch → processor.rested = true → processor.idle = false
  sleeps : processor.flushing ≠ 0 → processor.stopped = false ∧ processor.place ≠ .waiting

end BlockProcessor

section Processors

open BlockProcessor

variable {processor : BlockProcessor}

theorem notified (processor : BlockProcessor) : ∃ place, processor.notifyAll = { processor with flushing := 0, place := place } := by
  unfold notifyAll wake
  split
  · exact ⟨_, rfl⟩
  · exact ⟨processor.place, rfl⟩

theorem processor_wake_sound (order : processor.processed ++ processor.place.batch ++ processor.blocks = processor.added)
    (ended : processor.place = .done → processor.stopped = true) (first : processor.place = .loop → processor.rested = false)
    (busy : ∀ batch, processor.place = .processing batch → processor.rested = true → processor.idle = false)
    (sleeps : processor.flushing ≠ 0 → processor.stopped = false) : processor.wake.Sound := by
  unfold wake
  split
  case h_1 here =>
    rw [here] at order
    exact ⟨order, ProcessorPlace.noConfusion, ProcessorPlace.noConfusion, ProcessorPlace.noConfusion, fun _ =>
      ProcessorPlace.noConfusion, fun some => ⟨sleeps some, ProcessorPlace.noConfusion⟩⟩
  case h_2 other => exact ⟨order, fun here => absurd here other, ended, first, busy, fun some => ⟨sleeps some, other⟩⟩

theorem processor_turn_sound (order : processor.processed ++ processor.blocks = processor.added)
    (busy : processor.rested = true → processor.idle = false) (sleeps : processor.flushing ≠ 0 → processor.stopped = false) :
    processor.turn.Sound := by
  unfold turn
  split
  case isTrue stopped =>
    refine ⟨?_, ProcessorPlace.noConfusion, fun _ => stopped, ProcessorPlace.noConfusion, fun _ =>
      ProcessorPlace.noConfusion, fun some => ?_⟩
    · simpa [ProcessorPlace.batch] using order
    · exact absurd (sleeps some) (by simp [stopped])
  case isFalse running =>
    have running : processor.stopped = false := by simpa using running
    split
    case isTrue nothing =>
      obtain ⟨place, same⟩ := notified processor
      rw [same]
      refine ⟨?_, fun _ => ⟨List.isEmpty_iff.mp nothing, rfl, running⟩, ProcessorPlace.noConfusion, ProcessorPlace.noConfusion,
        fun _ => ProcessorPlace.noConfusion, fun some => absurd rfl some⟩
      simpa [ProcessorPlace.batch] using order
    case isFalse =>
      refine ⟨?_, ProcessorPlace.noConfusion, ProcessorPlace.noConfusion, ProcessorPlace.noConfusion, fun _ _ => busy,
        fun _ => ⟨running, ProcessorPlace.noConfusion⟩⟩
      simpa [ProcessorPlace.batch] using order

theorem flush_sound (sound : processor.Sound) : processor.flush.Sound := by
  unfold flush
  split
  case isTrue => exact sound
  case isFalse waits =>
    refine ⟨sound.order, sound.waits, sound.ended, sound.first, sound.busy, fun _ => ⟨?_, fun here => waits ?_⟩⟩
    · cases stopped : processor.stopped with
      | false => rfl
      | true => exact absurd (by simp [flushes, stopped]) waits
    · obtain ⟨nothing, idle, _⟩ := sound.waits here
      simp [flushes, nothing, idle]

theorem process_blocks_sound (sound : processor.Sound) : processor.processBlocks.Sound := by
  have sleeps (some : processor.flushing ≠ 0) : processor.stopped = false := (sound.sleeps some).1
  have order := sound.order
  unfold processBlocks
  split
  case h_1 here =>
    rw [here] at order
    exact processor_turn_sound (by simpa [ProcessorPlace.batch] using order)
      (fun rested => absurd (sound.first here) (by simp [rested])) sleeps
  case h_2 batch here =>
    rw [here] at order
    exact processor_turn_sound order (sound.busy batch here) sleeps
  case h_3 here =>
    rw [here] at order
    exact processor_turn_sound (by simpa [ProcessorPlace.batch] using order) (fun _ => rfl) sleeps
  case h_4 => exact sound

theorem processor_step_sound (action : ProcessorAction) (sound : processor.Sound) : (processor.step action).Sound := by
  cases action with
  | add item => exact processor_wake_sound (by simp [← sound.order]) sound.ended sound.first sound.busy fun some => absurd rfl some
  | flush => exact flush_sound sound
  | stop => exact processor_wake_sound sound.order (fun _ => rfl) sound.first sound.busy fun some => absurd rfl some
  | run => exact process_blocks_sound sound
  | wake => exact processor_wake_sound sound.order sound.ended sound.first sound.busy fun some => (sound.sleeps some).1
  | retry =>
      -- A caller that wakes up on its own leaves the others asleep.
      refine ⟨sound.order, sound.waits, sound.ended, sound.first, sound.busy, fun some => sound.sleeps fun none => some ?_⟩
      simp [step, none]

-- The items are processed in the order they were added. Nobody sleeps in `flush` while the thread does, and unless it is
-- stopped two more turns wake them all up. Once the thread has waited for the first time, a flush that no stop cuts short comes
-- back when everything is processed.
theorem processor_flushes (actions : List ProcessorAction) :
    let processor := BlockProcessor.fresh.runs actions
    processor.processed ++ processor.place.batch ++ processor.blocks = processor.added ∧
    (processor.place = .waiting → processor.blocks = [] ∧ processor.stopped = false ∧ processor.flushing = 0) ∧
    (processor.stopped = false → processor.processBlocks.processBlocks.place = .waiting ∧
      processor.processBlocks.processBlocks.processed = processor.added ∧ processor.processBlocks.processBlocks.flushing = 0) ∧
    (processor.rested = true → processor.stopped = false → processor.flushes = true → processor.processed = processor.added) := by
  intro processor
  have sound : processor.Sound := List.foldlRecOn actions BlockProcessor.step
    ⟨rfl, nofun, nofun, fun _ => rfl, nofun, fun some => absurd rfl some⟩ fun _ sound action _ => processor_step_sound action sound
  refine ⟨sound.order, fun here => ⟨(sound.waits here).1, (sound.waits here).2.2, ?_⟩, fun running => ?_, fun rested running free => ?_⟩
  · by_contra some
    exact (sound.sleeps some).2 here
  · -- The first turn takes what there is, and the second one has it processed.
    obtain ⟨order, waits, ended, first, busy, sleeps⟩ := sound
    cases here : processor.place with
    | done => grind
    | _ => grind [processBlocks, turn, notifyAll, wake]
  · simp only [BlockProcessor.flushes, running, Bool.false_or, Bool.and_eq_true, List.isEmpty_iff] at free
    have nothing : processor.place.batch = [] := by
      cases here : processor.place with
      | processing batch => exact absurd (sound.busy batch here rested) (by simp [free.2])
      | _ => rfl
    simpa [free.1, nothing] using sound.order

end Processors

-- Where the thread of `bootstrap_initiator` is.
inductive InitiatorPlace where
  | loop
  | running (attempt : Nat)
  | waiting
  | done
deriving DecidableEq

def InitiatorPlace.current : InitiatorPlace → List Nat
  | .running attempt => [attempt]
  | _ => []

-- The attempts are numbered as they are made. The callers that are in the loop of `bootstrap (endpoint)` sleep or have been woken up.
structure BootstrapInitiator where
  attempt : Option Nat
  stopped : Bool
  place : InitiatorPlace
  replacing : Nat
  returning : Nat
  made : Nat
  started : List Nat
  ended : List Nat
  halted : List Nat

-- `wake` and `retry` are spurious wake-ups, of the thread and of a caller.
inductive InitiatorAction where
  | bootstrap
  | bootstrapEndpoint
  | again
  | stop
  | run
  | wake
  | retry

namespace BootstrapInitiator

variable (initiator : BootstrapInitiator)

def fresh : BootstrapInitiator := ⟨none, false, .loop, 0, 0, 0, [], [], []⟩

def wake : BootstrapInitiator := { initiator with place := if initiator.place = .waiting then .loop else initiator.place }

def notifyAll : BootstrapInitiator := wake { initiator with replacing := 0, returning := initiator.returning + initiator.replacing }

def make : BootstrapInitiator := notifyAll { initiator with attempt := some initiator.made, made := initiator.made + 1 }

def bootstrap : BootstrapInitiator := if initiator.stopped = false ∧ initiator.attempt = none then initiator.make else initiator

-- The loop of `bootstrap (endpoint)`, which no longer asks whether the initiator has been stopped.
def replace : BootstrapInitiator :=
  match initiator.attempt with
  | some attempt => { initiator with halted := initiator.halted ++ [attempt], replacing := initiator.replacing + 1 }
  | none => initiator.make

def stop : BootstrapInitiator := notifyAll { initiator with stopped := true, halted := initiator.halted ++ initiator.attempt.toList }

-- The loop of `run_bootstrap` from its head to where the mutex is given up.
def turn : BootstrapInitiator :=
  if initiator.stopped then { initiator with place := .done }
  else
    match initiator.attempt with
    | some attempt => { initiator with place := .running attempt, started := initiator.started ++ [attempt] }
    | none => { initiator with place := .waiting }

def runBootstrap : BootstrapInitiator :=
  match initiator.place with
  | .loop => initiator.turn
  | .running attempt => turn (notifyAll { initiator with place := .loop, attempt := none, ended := initiator.ended ++ [attempt] })
  | _ => initiator

def step : InitiatorAction → BootstrapInitiator
  | .bootstrap => initiator.bootstrap
  | .bootstrapEndpoint => if initiator.stopped then initiator else initiator.replace
  | .again => if initiator.returning = 0 then initiator else replace { initiator with returning := initiator.returning - 1 }
  | .stop => initiator.stop
  | .run => initiator.runBootstrap
  | .wake => initiator.wake
  | .retry =>
      if initiator.replacing = 0 then initiator
      else { initiator with replacing := initiator.replacing - 1, returning := initiator.returning + 1 }

def runs (actions : List InitiatorAction) : BootstrapInitiator := actions.foldl step initiator

structure Sound : Prop where
  made : initiator.ended ++ initiator.attempt.toList = List.range initiator.made
  started : initiator.started = initiator.ended ++ initiator.place.current
  held : ∀ attempt, initiator.place = .running attempt → initiator.attempt = some attempt
  waits : initiator.place = .waiting → initiator.attempt = none ∧ initiator.stopped = false
  finished : initiator.place = .done → initiator.stopped = true
  told : initiator.replacing ≠ 0 → ∃ attempt ∈ initiator.halted, initiator.attempt = some attempt

end BootstrapInitiator

section Initiators

open BootstrapInitiator

variable {initiator : BootstrapInitiator}

theorem initiator_wake_sound (made : initiator.ended ++ initiator.attempt.toList = List.range initiator.made)
    (started : initiator.started = initiator.ended ++ initiator.place.current)
    (held : ∀ attempt, initiator.place = .running attempt → initiator.attempt = some attempt)
    (finished : initiator.place = .done → initiator.stopped = true)
    (told : initiator.replacing ≠ 0 → ∃ attempt ∈ initiator.halted, initiator.attempt = some attempt) : initiator.wake.Sound := by
  unfold wake
  split
  · next here => exact ⟨made, by rw [started, here]; rfl, nofun, nofun, nofun, told⟩
  · next up => exact ⟨made, started, held, fun here => absurd here up, finished, told⟩

theorem initiator_turn_sound (sound : initiator.Sound) (here : initiator.place = .loop) : initiator.turn.Sound := by
  have started : initiator.started = initiator.ended := by simpa [here, InitiatorPlace.current] using sound.started
  unfold turn
  split
  · next stopped => exact ⟨sound.made, by simp [started, InitiatorPlace.current], nofun, nofun, fun _ => stopped, sound.told⟩
  · next running =>
      split
      · next attempt found => exact ⟨sound.made, by rw [started]; rfl, by rintro _ ⟨⟩; exact found, nofun, nofun, sound.told⟩
      · next free =>
          exact ⟨sound.made,
            by simp [started, InitiatorPlace.current], nofun, fun _ => ⟨free, by simpa using running⟩, nofun, sound.told⟩

theorem make_sound (sound : initiator.Sound) (free : initiator.attempt = none) : initiator.make.Sound := by
  have made := sound.made
  rw [free, Option.toList_none, List.append_nil] at made
  refine initiator_wake_sound ?_ sound.started ?_ sound.finished fun some => absurd rfl some
  · rw [made, List.range_succ]
    rfl
  · intro attempt running
    rw [sound.held attempt running] at free
    cases free

theorem replace_sound (sound : initiator.Sound) : initiator.replace.Sound := by
  unfold replace
  split
  · next attempt found =>
      exact ⟨sound.made, sound.started, sound.held, sound.waits, sound.finished, fun _ =>
        ⟨attempt, List.mem_append_right _ List.mem_cons_self, found⟩⟩
  · next free => exact make_sound sound free

theorem run_bootstrap_sound (sound : initiator.Sound) : initiator.runBootstrap.Sound := by
  unfold runBootstrap
  split
  · next here => exact initiator_turn_sound sound here
  · next attempt here =>
      have made := sound.made
      rw [sound.held attempt here] at made
      have started := sound.started
      rw [here] at started
      refine initiator_turn_sound (initiator_wake_sound ?_ ?_ nofun nofun fun some => absurd rfl some) rfl
      · rw [Option.toList_none, List.append_nil]
        exact made
      · exact started.trans (List.append_nil _).symm
  · exact sound

theorem initiator_step_sound (action : InitiatorAction) (sound : initiator.Sound) : (initiator.step action).Sound := by
  cases action with
  | bootstrap =>
      dsimp only [step, bootstrap]
      split
      · next free => exact make_sound sound free.2
      · exact sound
  | bootstrapEndpoint =>
      dsimp only [step]
      split
      · exact sound
      · exact replace_sound sound
  | again =>
      dsimp only [step]
      split
      · exact sound
      · exact replace_sound ⟨sound.made, sound.started, sound.held, sound.waits, sound.finished, sound.told⟩
  | stop => exact initiator_wake_sound sound.made sound.started sound.held (fun _ => rfl) fun some => absurd rfl some
  | run => exact run_bootstrap_sound sound
  | wake => exact initiator_wake_sound sound.made sound.started sound.held sound.finished sound.told
  | retry =>
      dsimp only [step]
      split
      · exact sound
      · next some => exact ⟨sound.made, sound.started, sound.held, sound.waits, sound.finished, fun _ => sound.told some⟩

-- The attempts are made, run and ended one after the other. Whoever sleeps in `bootstrap (endpoint)` has told the present one
-- to stop, and two more turns of the thread wake it up.
theorem initiator_single_flight (actions : List InitiatorAction) :
    let initiator := BootstrapInitiator.fresh.runs actions
    initiator.ended ++ initiator.attempt.toList = List.range initiator.made ∧ initiator.started <+: List.range initiator.made ∧
    (initiator.place = .waiting → initiator.attempt = none ∧ initiator.stopped = false) ∧
    (initiator.replacing ≠ 0 → ∃ attempt ∈ initiator.halted, initiator.attempt = some attempt ∧
      (initiator.stopped = false → initiator.runBootstrap.runBootstrap.replacing = 0)) := by
  intro initiator
  have sound : initiator.Sound := List.foldlRecOn actions step
    ⟨rfl, rfl, nofun, nofun, nofun, fun some => absurd rfl some⟩ fun _ sound action _ => initiator_step_sound action sound
  refine ⟨sound.made, ?_, sound.waits, fun some => ?_⟩
  · rw [sound.started, ← sound.made, List.prefix_append_right_inj]
    cases here : initiator.place with
    | running attempt =>
        rw [sound.held attempt here]
        exact List.prefix_refl _
    | _ => exact List.nil_prefix
  · obtain ⟨attempt, halted, found⟩ := sound.told some
    refine ⟨attempt, halted, found, fun running => ?_⟩
    cases here : initiator.place with
    | waiting =>
        rw [(sound.waits here).1] at found
        cases found
    | done => simp [sound.finished here] at running
    | _ => simp [runBootstrap, turn, notifyAll, wake, here, running, found]

end Initiators

end Rai
