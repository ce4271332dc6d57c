import Mathlib.Data.List.Basic

set_option autoImplicit false

namespace Kit

-- Entries under names that may repeat. `List.lookup` finds the first entry of a name.
namespace Named

variable {ι α : Type} [DecidableEq ι]

-- The first entry of the name is changed in its place; a name that is missing is added at the end.
def change (name : ι) (f : Option α → α) : List (ι × α) → List (ι × α)
  | [] => [(name, f none)]
  | entry :: rest => if entry.1 = name then (entry.1, f (some entry.2)) :: rest else entry :: change name f rest

def without (name : ι) (entries : List (ι × α)) : List (ι × α) := entries.filter fun entry => entry.1 ≠ name

variable (name other : ι)

theorem lookup_cons (entry : ι × α) (rest : List (ι × α)) :
    (entry :: rest).lookup name = if entry.1 = name then some entry.2 else rest.lookup name := by
  rw [List.lookup_cons]
  by_cases same : entry.1 = name
  · rw [if_pos same, beq_iff_eq.mpr same.symm]
  · rw [if_neg same, beq_eq_false_iff_ne.mpr (Ne.symm same)]

theorem lookup_change (f : Option α → α) (entries : List (ι × α)) :
    (change name f entries).lookup other = if name = other then some (f (entries.lookup name)) else entries.lookup other := by
  induction entries with
  | nil => simp [change, lookup_cons]
  | cons entry rest ih =>
      by_cases named : entry.1 = name
      · by_cases same : name = other <;> simp [change, lookup_cons, named, same]
      · by_cases same : entry.1 = other
        · have different : name ≠ other := fun equal => named (same.trans equal.symm)
          rw [change, if_neg named, lookup_cons, if_pos same, if_neg different, lookup_cons, if_pos same]
        · simp [change, lookup_cons, named, same, ih]

theorem lookup_without (entries : List (ι × α)) :
    (without name entries).lookup other = if name = other then none else entries.lookup other := by
  induction entries with
  | nil => simp [without]
  | cons entry rest ih =>
      rw [without] at ih ⊢
      by_cases named : entry.1 = name
      · rw [List.filter_cons_of_neg (by simpa using named), ih]
        by_cases same : name = other
        · rw [if_pos same, if_pos same]
        · rw [if_neg same, if_neg same, lookup_cons, if_neg (named ▸ same)]
      · rw [List.filter_cons_of_pos (by simpa using named), lookup_cons, lookup_cons, ih]
        by_cases same : entry.1 = other
        · have different : name ≠ other := fun equal => named (same.trans equal.symm)
          rw [if_pos same, if_neg different, if_pos same]
        · rw [if_neg same, if_neg same]

end Named

end Kit
