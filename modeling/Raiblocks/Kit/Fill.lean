import Mathlib.Data.Finset.Card
import Mathlib.Data.Finset.Dedup
import Mathlib.Data.Finset.Lattice.Basic

set_option autoImplicit false

namespace Kit

section Fill

variable {α : Type} [DecidableEq α]

def fillTo (count : Nat) : List α → Finset α → Finset α
  | [], chosen => chosen
  | a :: rest, chosen => if chosen.card < count then fillTo count rest (insert a chosen) else chosen

theorem fill_full (count : Nat) (candidates : List α) (chosen : Finset α) (full : count ≤ chosen.card) :
    fillTo count candidates chosen = chosen := by
  cases candidates with
  | nil => rfl
  | cons a rest => exact if_neg (Nat.not_lt.mpr full)

theorem fill_card_le (count : Nat) (candidates : List α) (chosen : Finset α) (room : chosen.card ≤ count) :
    (fillTo count candidates chosen).card ≤ count := by
  induction candidates generalizing chosen with
  | nil => exact room
  | cons a rest ih =>
      rw [fillTo]
      split
      case isTrue more => exact ih _ ((Finset.card_insert_le a chosen).trans more)
      case isFalse => exact room

theorem fill_among (count : Nat) (candidates : List α) (chosen : Finset α) :
    ∀ a ∈ fillTo count candidates chosen, a ∈ chosen ∨ a ∈ candidates := by
  induction candidates generalizing chosen with
  | nil => exact fun a member => Or.inl member
  | cons b rest ih =>
      intro a member
      rw [fillTo] at member
      split at member
      case isTrue =>
        rcases ih _ a member with taken | later
        · rcases Finset.mem_insert.mp taken with rfl | before
          · exact Or.inr List.mem_cons_self
          · exact Or.inl before
        · exact Or.inr (List.mem_cons_of_mem b later)
      case isFalse => exact Or.inl member

theorem fill_eq (count : Nat) (candidates : List α) (chosen : Finset α) (distinct : candidates.Nodup) :
    fillTo count candidates chosen = chosen ∪ ((candidates.filter (fun a => a ∉ chosen)).take (count - chosen.card)).toFinset := by
  induction candidates generalizing chosen with
  | nil => simp [fillTo]
  | cons a rest ih =>
      obtain ⟨new, distinct⟩ := List.nodup_cons.mp distinct
      rw [fillTo]
      split
      case isFalse full => simp [Nat.sub_eq_zero_of_le (Nat.not_lt.mp full)]
      case isTrue more =>
        rw [ih (insert a chosen) distinct]
        by_cases known : a ∈ chosen
        · rw [Finset.insert_eq_of_mem known, List.filter_cons_of_neg (by simpa using known)]
        · have others : rest.filter (fun b => b ∉ insert a chosen) = rest.filter (fun b => b ∉ chosen) := by
            apply List.filter_congr
            intro b member
            have other : b ≠ a := fun same => new (same ▸ member)
            simp [other]
          have fewer : count - chosen.card = count - (chosen.card + 1) + 1 := by omega
          rw [Finset.card_insert_of_notMem known, others, List.filter_cons_of_pos (by simpa using known), fewer, List.take_succ_cons,
            List.toFinset_cons, Finset.insert_union, Finset.union_insert]

theorem unchosen_length (candidates : List α) (chosen : Finset α) (distinct : candidates.Nodup) (known : ∀ a ∈ chosen, a ∈ candidates) :
    chosen.card + (candidates.filter (fun a => a ∉ chosen)).length = candidates.length := by
  have taken : (candidates.filter (fun a => a ∈ chosen)).length = chosen.card := by
    rw [← List.toFinset_card_of_nodup (distinct.filter _)]
    congr 1
    ext a
    simpa using known a
  have parts := List.length_eq_length_filter_add (l := candidates) (fun a => decide (a ∈ chosen))
  simp only [decide_not]
  omega

theorem fill_card (count : Nat) (candidates : List α) (chosen : Finset α) (distinct : candidates.Nodup)
    (known : ∀ a ∈ chosen, a ∈ candidates) (room : chosen.card ≤ count) :
    (fillTo count candidates chosen).card = min count candidates.length := by
  have apart : Disjoint chosen ((candidates.filter (fun a => a ∉ chosen)).take (count - chosen.card)).toFinset := by
    rw [Finset.disjoint_left]
    intro a member later
    have filtered := List.mem_of_mem_take (List.mem_toFinset.mp later)
    exact of_decide_eq_true (List.mem_filter.mp filtered).2 member
  have rest := unchosen_length candidates chosen distinct known
  rw [fill_eq count candidates chosen distinct, Finset.card_union_of_disjoint apart,
    List.toFinset_card_of_nodup ((distinct.filter _).sublist (List.take_sublist _ _)), List.length_take]
  omega

end Fill

theorem ordered_cut_iff {α : Type} (height : α → Nat) (cut : Nat) (list : List α)
    (ordered : list.Pairwise fun a b => height a ≤ height b) : (∀ a ∈ list.take cut, ∀ b ∈ list.drop cut, height b ≤ height a) ↔
      cut = 0 ∨ list.length ≤ cut ∨ ∀ a ∈ list, ∀ b ∈ list, height a = height b := by
  constructor
  · intro above
    by_cases front : cut = 0
    · exact Or.inl front
    by_cases back : list.length ≤ cut
    · exact Or.inr (Or.inl back)
    have between : ∀ a ∈ list.take cut, ∀ b ∈ list.drop cut, height a = height b := by
      intro a first b second
      rw [← List.take_append_drop cut list] at ordered
      exact Nat.le_antisymm ((List.pairwise_append.mp ordered).2.2 a first b second) (above a first b second)
    obtain ⟨a, first⟩ := List.exists_mem_of_length_pos (l := list.take cut) (by rw [List.length_take]; omega)
    obtain ⟨b, second⟩ := List.exists_mem_of_length_pos (l := list.drop cut) (by rw [List.length_drop]; omega)
    have level : ∀ c ∈ list, height c = height a := by
      intro c member
      rw [← List.take_append_drop cut list] at member
      rcases List.mem_append.mp member with front | back
      · exact (between c front b second).trans (between a first b second).symm
      · exact (between a first c back).symm
    exact Or.inr (Or.inr fun c member d member' => (level c member).trans (level d member').symm)
  · rintro (rfl | short | level) a first b second
    · cases first
    · rw [List.drop_of_length_le short] at second
      cases second
    · exact (level b (List.mem_of_mem_drop second) a (List.mem_of_mem_take first)).le

end Kit
