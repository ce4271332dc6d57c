import Raiblocks.Kit.Fuel

set_option autoImplicit false

namespace Kit

-- A computation over a state that may throw, and may also stop for good. What it changed before it threw stays changed.
abbrev Trial (ε σ α : Type) := ExceptT ε (StateT σ (Except Fault)) α

namespace Trial

variable {ε σ τ α β : Type}

def observe (read : σ → Option α) (missing : ε) : Trial ε σ α :=
  ExceptT.mk fun s => match read s with
    | some a => .ok (.ok a, s)
    | none => .ok (.error missing, s)

def tried (x : Except ε α) : Trial ε σ α := ExceptT.mk fun s => .ok (x, s)

def called (x : Except Fault α) : Trial ε σ α := ExceptT.mk fun s => x.map fun a => (.ok a, s)

def assign (change : σ → σ) : Trial ε σ Unit := ExceptT.mk fun s => .ok (.ok (), change s)

def within (part : σ → τ) (place : σ → τ → σ) (x : Trial ε τ α) : Trial ε σ α :=
  ExceptT.mk fun s => (x.run (part s)).map fun out => (out.1, place s out.2)

def handled [DecidableEq ε] (kind : ε) (value : α) : Except ε α → Except ε α
  | .ok a => .ok a
  | .error thrown => if thrown = kind then .ok value else .error thrown

def catching [DecidableEq ε] (kind : ε) (value : α) (x : Trial ε σ α) : Trial ε σ α :=
  ExceptT.mk fun s => (x.run s).map fun out => (handled kind value out.1, out.2)

def Meets (x : Trial ε σ α) (s : σ) (post : α → σ → Prop) : Prop := ∃ a t, x.run s = .ok (.ok a, t) ∧ post a t

variable {s : σ}

theorem meets_returned {x : Trial ε σ α} {a : α} {t : σ} (returned : x.run s = .ok (.ok a, t)) (post : α → σ → Prop) :
    Meets x s post ↔ post a t := by
  constructor
  · rintro ⟨b, u, other, met⟩
    rw [returned] at other
    obtain ⟨same, rfl⟩ := Prod.mk.inj (Except.ok.inj other)
    cases same
    exact met
  · exact fun met => ⟨a, t, returned, met⟩

theorem meets_congr {x : Trial ε σ α} {post other : α → σ → Prop} (same : ∀ a t, post a t ↔ other a t) :
    Meets x s post ↔ Meets x s other := by
  simp only [Meets, same]

@[simp] theorem meets_pure (a : α) (post : α → σ → Prop) : Meets (pure a : Trial ε σ α) s post ↔ post a s :=
  meets_returned rfl post

@[simp] theorem meets_bind (x : Trial ε σ α) (next : α → Trial ε σ β) (post : β → σ → Prop) :
    Meets (x >>= next) s post ↔ Meets x s fun a u => Meets (next a) u post := by
  constructor
  · rintro ⟨b, t, returned, met⟩
    obtain ⟨out, first, rest⟩ := bind_returned (show x.run s >>= _ = _ from returned)
    obtain ⟨result, u⟩ := out
    cases result with
    | error thrown => cases rest
    | ok a => exact ⟨a, u, first, b, t, rest, met⟩
  · rintro ⟨a, u, first, b, t, rest, met⟩
    refine ⟨b, t, ?_, met⟩
    show x.run s >>= _ = _
    rw [first]
    exact rest

@[simp] theorem meets_observe (read : σ → Option α) (missing : ε) (post : α → σ → Prop) :
    Meets (observe read missing) s post ↔ ∃ a, read s = some a ∧ post a s := by
  cases found : read s with
  | none =>
      have thrown : (observe read missing).run s = .ok (.error missing, s) := by simp [observe, ExceptT.run, ExceptT.mk, found]
      simp [Meets, thrown]
  | some a =>
      have returned : (observe read missing).run s = .ok (.ok a, s) := by simp [observe, ExceptT.run, ExceptT.mk, found]
      simp [meets_returned returned]

@[simp] theorem meets_tried (x : Except ε α) (post : α → σ → Prop) : Meets (tried x) s post ↔ ∃ a, x = .ok a ∧ post a s := by
  cases x with
  | error thrown => simp [Meets, tried, ExceptT.run, ExceptT.mk]
  | ok a => simp [meets_returned (show (tried (.ok a) : Trial ε σ α).run s = .ok (.ok a, s) from rfl)]

@[simp] theorem meets_called (x : Except Fault α) (post : α → σ → Prop) :
    Meets (called x : Trial ε σ α) s post ↔ ∃ a, x = .ok a ∧ post a s := by
  cases x with
  | error fault => simp [Meets, called, ExceptT.run, ExceptT.mk, Except.map]
  | ok a => simp [meets_returned (show (called (.ok a) : Trial ε σ α).run s = .ok (.ok a, s) from rfl)]

@[simp] theorem meets_assign (change : σ → σ) (post : Unit → σ → Prop) :
    Meets (assign change : Trial ε σ Unit) s post ↔ post () (change s) :=
  meets_returned rfl post

@[simp] theorem meets_within (part : σ → τ) (place : σ → τ → σ) (x : Trial ε τ α) (post : α → σ → Prop) :
    Meets (within part place x) s post ↔ Meets x (part s) fun a u => post a (place s u) := by
  constructor
  · rintro ⟨a, t, returned, met⟩
    obtain ⟨out, first, same⟩ := map_returned returned
    obtain ⟨result, u⟩ := out
    obtain ⟨rfl, rfl⟩ := Prod.mk.inj same
    exact ⟨a, u, first, met⟩
  · rintro ⟨a, u, first, met⟩
    refine ⟨a, place s u, ?_, met⟩
    show (x.run (part s)).map _ = _
    rw [first]
    rfl

theorem meets_catching [DecidableEq ε] (kind : ε) (value : α) (x : Trial ε σ α) (post : α → σ → Prop) (refuses : ∀ t, ¬ post value t) :
    Meets (catching kind value x) s post ↔ Meets x s post := by
  constructor
  · rintro ⟨a, t, returned, met⟩
    obtain ⟨out, first, same⟩ := map_returned returned
    obtain ⟨result, u⟩ := out
    obtain ⟨kept, rfl⟩ := Prod.mk.inj same
    cases result with
    | ok b =>
        cases kept
        exact ⟨a, u, first, met⟩
    | error thrown =>
        simp only [handled] at kept
        split at kept
        · cases kept
          exact absurd met (refuses u)
        · cases kept
  · rintro ⟨a, t, returned, met⟩
    refine ⟨a, t, ?_, met⟩
    show (x.run s).map _ = _
    rw [returned]
    rfl

end Trial

end Kit
