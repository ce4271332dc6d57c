import Mathlib.Logic.Basic

set_option autoImplicit false

namespace Kit

-- A fuelled run either returns, stops at a failed assertion or a null
-- dereference, or uses up the fuel that bounds its loops and calls.
inductive Fault where
  | abort
  | fuel
deriving DecidableEq, Repr

def ensure (p : Prop) [Decidable p] : Except Fault Unit :=
  if p then .ok () else .error .abort

def require {α : Type} : Option α → Except Fault α
  | some a => .ok a
  | none => .error .abort

-- A run that returns meets `post`; one that does not stops with a fault that `fault` allows.
def Settles {α : Type} (x : Except Fault α) (fault : Fault → Prop) (post : α → Prop) : Prop :=
  match x with
  | .ok a => post a
  | .error stopped => fault stopped

-- The only fault is running out of fuel, and only where there was not enough of it.
def Starved (enough : Prop) (fault : Fault) : Prop := fault = .fuel ∧ ¬ enough

def Terminates {α : Type} (run : Nat → Except Fault α) : Prop :=
  ∃ bound, ∀ fuel, bound ≤ fuel → run fuel ≠ .error .fuel

def Returns {α : Type} (run : Nat → Except Fault α) : Prop :=
  ∃ bound, ∀ fuel, bound ≤ fuel → ∃ a, run fuel = .ok a

-- Enough fuel gives this value, and more fuel gives no other.
def Yields {α : Type} (run : Nat → Except Fault α) (a : α) : Prop := ∃ bound, ∀ fuel, bound ≤ fuel → run fuel = .ok a

def Diverges {α : Type} (run : Nat → Except Fault α) : Prop := ∀ fuel, run fuel = .error .fuel

def Extends {α : Type} (x y : Except Fault α) : Prop := ∀ a, x = .ok a → y = .ok a

section Rules

variable {α β : Type}

@[simp] theorem settles_ok (a : α) (fault : Fault → Prop) (post : α → Prop) : Settles (.ok a) fault post ↔ post a := Iff.rfl

@[simp] theorem settles_error (stopped : Fault) (fault : Fault → Prop) (post : α → Prop) :
    Settles (.error stopped) fault post ↔ fault stopped := Iff.rfl

theorem settles_mono {x : Except Fault α} {fault fault' : Fault → Prop} {post post' : α → Prop}
    (settled : Settles x fault post) (allowed : ∀ stopped, fault stopped → fault' stopped) (weaker : ∀ a, post a → post' a) :
    Settles x fault' post' := by
  cases x with
  | ok a => exact weaker a settled
  | error stopped => exact allowed stopped settled

theorem settles_any (x : Except Fault α) : Settles x (fun _ => True) fun _ => True := by
  cases x <;> trivial

section Sequencing

variable {x : Except Fault α} {next : α → Except Fault β} {fault : Fault → Prop} {post : β → Prop}

theorem settles_bind {mid : α → Prop} (first : Settles x fault mid) (rest : ∀ a, mid a → Settles (next a) fault post) :
    Settles (x >>= next) fault post := by
  cases x with
  | ok a => exact rest a first
  | error stopped => exact first

theorem settles_value {value : α} (first : Settles x fault (· = value)) (rest : Settles (next value) fault post) :
    Settles (x >>= next) fault post := by
  apply settles_bind first
  rintro a rfl
  exact rest

theorem settles_step {value : α} (returned : x = .ok value) (rest : Settles (next value) fault post) :
    Settles (x >>= next) fault post := by
  subst returned
  exact rest

theorem settles_stop {stopped : Fault} (stops : x = .error stopped) (allowed : fault stopped) : Settles (x >>= next) fault post := by
  subst stops
  exact allowed

theorem settles_last {value : β} {y : Except Fault β} (returned : y = .ok value) (holds : post value) : Settles y fault post := by
  subst returned
  exact holds

theorem settles_unless {p : Prop} [Decidable p] {y : Except Fault β} {value : β} (early : p → post value)
    (rest : ¬ p → Settles y fault post) : Settles (if p then .ok value else y) fault post := by
  split
  · next holds => exact early holds
  · next fails => exact rest fails

end Sequencing

-- A loop over a list keeps what holds of the entries it has been through.
theorem settles_fold {E : Type} {step : α → E → Except Fault α} {fault : Fault → Prop} (holds : List E → α → Prop)
    (entries : List E) (a : α) (start : holds [] a) (each : ∀ done entry rest a, entries = done ++ entry :: rest → holds done a →
      Settles (step a entry) fault (holds (done ++ [entry]))) : Settles (entries.foldlM step a) fault (holds entries) := by
  have onward : ∀ rest done a, entries = done ++ rest → holds done a → Settles (rest.foldlM step a) fault (holds entries) := by
    intro rest
    induction rest with
    | nil =>
        intro done a whole reached
        rw [List.append_nil] at whole
        exact whole ▸ reached
    | cons entry rest ih =>
        intro done a whole reached
        rw [List.foldlM_cons]
        exact settles_bind (each done entry rest a whole reached) fun b next => ih (done ++ [entry]) b (by simp [whole]) next
  exact onward entries [] a rfl start

theorem settles_returned {x : Except Fault α} {fault : Fault → Prop} {post : α → Prop} {a : α}
    (settled : Settles x fault post) (returned : x = .ok a) : post a := by
  subst returned
  exact settled

theorem settles_never {x : Except Fault α} {fault : Fault → Prop} {post : α → Prop} (settled : Settles x fault post)
    (never : ∀ stopped, ¬ fault stopped) : ∃ a, x = .ok a ∧ post a := by
  cases x with
  | ok a => exact ⟨a, rfl, settled⟩
  | error stopped => exact absurd settled (never stopped)

theorem settles_returns {x : Except Fault α} {enough : Prop} {post : α → Prop} (settled : Settles x (Starved enough) post)
    (holds : enough) : ∃ a, x = .ok a ∧ post a :=
  settles_never settled fun _ starved => starved.2 holds

theorem returns_settled {run : Nat → Except Fault α} {holds : Prop} {bound : Nat} {post : α → Prop}
    (settled : ∀ fuel, Settles (run fuel) (Starved (holds ∧ bound ≤ fuel)) post) (proof : holds) : Returns run := by
  refine ⟨bound, fun fuel enough => ?_⟩
  obtain ⟨a, returned, _⟩ := settles_returns (settled fuel) ⟨proof, enough⟩
  exact ⟨a, returned⟩

theorem settles_enough {x : Except Fault α} {enough enough' : Prop} {post : α → Prop}
    (settled : Settles x (Starved enough) post) (stronger : enough' → enough) : Settles x (Starved enough') post :=
  settles_mono settled (fun _ starved => ⟨starved.1, fun holds => starved.2 (stronger holds)⟩) (fun _ => id)

theorem settles_self {x : Except Fault α} {enough enough' : Prop} {post : α → Prop} (settled : Settles x (Starved enough) post)
    (returns : enough' → ∃ a, x = .ok a) : Settles x (Starved enough') fun a => post a ∧ x = .ok a := by
  cases x with
  | ok a => exact ⟨settled, rfl⟩
  | error stopped =>
      refine ⟨settled.1, fun holds => ?_⟩
      obtain ⟨_, returned⟩ := returns holds
      cases returned

theorem settles_with {x : Except Fault α} {fault : Fault → Prop} {post : α → Prop} {fact : Prop} (settled : Settles x fault post)
    (holds : fact) : Settles x fault fun a => post a ∧ fact :=
  settles_mono settled (fun _ => id) fun _ met => ⟨met, holds⟩

theorem yields_bounded {run : Nat → Except Fault α} {bound : Nat} {a : α}
    (settled : ∀ fuel, Settles (run fuel) (Starved (bound ≤ fuel)) (· = a)) : Yields run a := by
  refine ⟨bound, fun fuel enough => ?_⟩
  obtain ⟨_, returned, rfl⟩ := settles_returns (settled fuel) enough
  exact returned

theorem yields_settled {run : Nat → Except Fault α} {holds : Prop} {bound : Nat} {a : α}
    (settled : ∀ fuel, Settles (run fuel) (Starved (holds ∧ bound ≤ fuel)) (· = a)) (proof : holds) : Yields run a :=
  yields_bounded fun fuel => settles_enough (settled fuel) fun enough => ⟨proof, enough⟩

@[simp] theorem ensure_true (p : Prop) [Decidable p] (holds : p) : ensure p = .ok () := if_pos holds

@[simp] theorem require_some (a : α) : require (some a) = .ok a := rfl

@[simp] theorem bind_ok (a : α) (next : α → Except Fault β) : ((Except.ok a : Except Fault α) >>= next) = next a := rfl

@[simp] theorem bind_error (fault : Fault) (next : α → Except Fault β) :
    ((Except.error fault : Except Fault α) >>= next) = .error fault := rfl

theorem bind_returned {x : Except Fault α} {next : α → Except Fault β} {b : β} (returned : (x >>= next) = .ok b) :
    ∃ a, x = .ok a ∧ next a = .ok b := by
  cases x with
  | error fault => cases returned
  | ok a => exact ⟨a, rfl, returned⟩

theorem bind_stops_iff {x : Except Fault α} {next : α → Except Fault β} (through : ∀ a, ∃ b, next a = .ok b) :
    (∃ fault, (x >>= next) = .error fault) ↔ ∃ fault, x = .error fault := by
  cases x with
  | error fault => simp
  | ok a =>
      obtain ⟨b, returned⟩ := through a
      simp [returned]

theorem map_stops_iff {x : Except Fault α} {f : α → β} : (∃ fault, x.map f = .error fault) ↔ ∃ fault, x = .error fault := by
  cases x <;> simp [Except.map]

theorem bind_mapped {γ : Type} (x : Except Fault α) (next : α → Except Fault β) (f : β → γ) :
    (x >>= next).map f = x >>= fun a => (next a).map f := by
  cases x <;> rfl

theorem map_returned {x : Except Fault α} {f : α → β} {b : β} (returned : x.map f = .ok b) : ∃ a, x = .ok a ∧ f a = b := by
  cases x with
  | error fault => cases returned
  | ok a => exact ⟨a, rfl, Except.ok.inj returned⟩

theorem yields_ok (a : α) : Yields (fun _ => Except.ok a) a := ⟨0, fun _ _ => rfl⟩

theorem yields_unique {run : Nat → Except Fault α} {a b : α} (first : Yields run a) (second : Yields run b) : a = b := by
  obtain ⟨bound, returned⟩ := first
  obtain ⟨bound', returned'⟩ := second
  have value := returned (max bound bound') (Nat.le_max_left _ _)
  rw [returned' (max bound bound') (Nat.le_max_right _ _)] at value
  exact (Except.ok.inj value).symm

theorem yields_bind {run : Nat → Except Fault α} {next : Nat → α → Except Fault β} {a : α} {b : β} (first : Yields run a)
    (rest : Yields (fun fuel => next fuel a) b) : Yields (fun fuel => run fuel >>= next fuel) b := by
  obtain ⟨bound, returned⟩ := first
  obtain ⟨bound', returned'⟩ := rest
  refine ⟨max bound bound', fun fuel enough => ?_⟩
  have more := returned fuel (Nat.le_trans (Nat.le_max_left _ _) enough)
  have more' := returned' fuel (Nat.le_trans (Nat.le_max_right _ _) enough)
  simp only [more, bind_ok]
  exact more'

theorem check_passed {c : Prop} [Decidable c] {a : α} {rest : Except Fault α} {fault : Fault}
    (stopped : (if c then .ok a else rest) = .error fault) : ¬ c ∧ rest = .error fault := by
  split at stopped
  · cases stopped
  · next passed => exact ⟨passed, stopped⟩

theorem diverges_not_terminates (run : Nat → Except Fault α) (diverges : Diverges run) : ¬ Terminates run := by
  rintro ⟨bound, stops⟩
  exact stops bound (Nat.le_refl bound) (diverges bound)

theorem extends_refl (x : Except Fault α) : Extends x x := fun _ => id

theorem extends_fault (fault : Fault) (y : Except Fault α) : Extends (.error fault) y := by
  intro a returned
  cases returned

theorem extends_bind {x y : Except Fault α} {next next' : α → Except Fault β} (first : Extends x y)
    (rest : ∀ a, Extends (next a) (next' a)) : Extends (x >>= next) (y >>= next') := by
  cases x with
  | error stopped => exact extends_fault stopped _
  | ok a =>
      rw [first a rfl]
      exact rest a

end Rules

end Kit
