import Mathlib.Data.List.Basic

set_option autoImplicit false

namespace Kit

inductive Lease (α : Type) where
  | out (item : α)
  | back (item : α)

namespace Lease

variable {α : Type}

def Held (history : List (Lease α)) (item : α) : Prop :=
  ∃ earlier since, history = earlier ++ out item :: since ∧ back item ∉ since

def Exclusive (history : List (Lease α)) : Prop :=
  ∀ earlier between later item, history = earlier ++ out item :: between ++ out item :: later → back item ∈ between

theorem held_nil (item : α) : ¬ Held [] item := by
  rintro ⟨earlier, since, same, _⟩
  simp at same

theorem exclusive_nil : Exclusive ([] : List (Lease α)) := by
  intro earlier between later item same
  simp at same

theorem last_event {history earlier since : List (Lease α)} {last event : Lease α}
    (same : history ++ [last] = earlier ++ event :: since) :
    since = [] ∧ earlier = history ∧ event = last ∨ ∃ before, since = before ++ [last] ∧ history = earlier ++ event :: before := by
  rcases List.eq_nil_or_concat since with rfl | ⟨before, other, rfl⟩
  · obtain ⟨front, single⟩ := List.append_singleton_inj.mp same
    exact Or.inl ⟨rfl, front.symm, single.symm⟩
  · rw [List.concat_eq_append, ← List.cons_append, ← List.append_assoc] at same
    obtain ⟨front, rfl⟩ := List.append_singleton_inj.mp same
    exact Or.inr ⟨before, List.concat_eq_append, front⟩

variable (history : List (Lease α)) (item : α)

theorem held_out (other : α) : Held (history ++ [out other]) item ↔ item = other ∨ Held history item := by
  constructor
  · rintro ⟨earlier, since, same, absent⟩
    rcases last_event same with ⟨_, _, handed⟩ | ⟨before, rfl, front⟩
    · exact Or.inl (out.inj handed)
    · exact Or.inr ⟨earlier, before, front, fun member => absent (List.mem_append_left _ member)⟩
  · rintro (rfl | ⟨earlier, since, rfl, absent⟩)
    · exact ⟨history, [], rfl, List.not_mem_nil⟩
    · exact ⟨earlier, since ++ [out other], by simp, by simpa using absent⟩

theorem held_back (other : α) : Held (history ++ [back other]) item ↔ item ≠ other ∧ Held history item := by
  constructor
  · rintro ⟨earlier, since, same, absent⟩
    rcases last_event same with ⟨_, _, handed⟩ | ⟨before, rfl, front⟩
    · cases handed
    · simp only [List.mem_append, List.mem_singleton, back.injEq, not_or] at absent
      exact ⟨absent.2, earlier, before, front, absent.1⟩
  · rintro ⟨different, earlier, since, rfl, absent⟩
    exact ⟨earlier, since ++ [back other], by simp, by simpa using ⟨absent, different⟩⟩

theorem exclusive_out : Exclusive (history ++ [out item]) ↔ Exclusive history ∧ ¬ Held history item := by
  constructor
  · intro exclusive
    constructor
    · rintro earlier between later other rfl
      exact exclusive earlier between (later ++ [out item]) other (by simp)
    · rintro ⟨earlier, since, rfl, absent⟩
      exact absent (exclusive earlier since [] item (by simp))
  · rintro ⟨exclusive, free⟩ earlier between later other same
    rcases last_event same with ⟨_, rfl, handed⟩ | ⟨before, _, front⟩
    · obtain rfl := out.inj handed
      by_contra absent
      exact free ⟨earlier, between, rfl, absent⟩
    · exact exclusive earlier between before other front

theorem exclusive_back : Exclusive (history ++ [back item]) ↔ Exclusive history := by
  constructor
  · rintro exclusive earlier between later other rfl
    exact exclusive earlier between (later ++ [back item]) other (by simp)
  · intro exclusive earlier between later other same
    rcases last_event same with ⟨_, _, handed⟩ | ⟨before, _, front⟩
    · cases handed
    · exact exclusive earlier between before other front

end Lease

end Kit
