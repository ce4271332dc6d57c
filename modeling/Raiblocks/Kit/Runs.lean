import Mathlib.Order.WithBot
import Mathlib.Data.List.Infix

set_option autoImplicit false

namespace Kit

section Trails

variable {S A : Type} (step : S → A → S → Prop) (meets : S → A → Prop)

inductive Trail (start : S) : S → Prop where
  | start : Trail start start
  | step (s : S) (action : A) (t : S) (path : Trail start s) (met : meets s action) (taken : step s action t) : Trail start t

theorem trail_invariant (P : S → Prop) {start t : S} (first : P start)
    (kept : ∀ s action t, P s → meets s action → step s action t → P t) (path : Trail step meets start t) : P t := by
  induction path with
  | start => exact first
  | step s action t _ met taken ih => exact kept s action t ih met taken

end Trails

-- One mark per key, which an offer can only raise. An offer below the mark is refused.
section Watermark

variable {K Q E : Type} [DecidableEq K] [LinearOrder Q] (key : E → K) (rank : E → Q)

def raise (marks : K → WithBot Q) (offer : E) : K → WithBot Q :=
  Function.update marks (key offer) (max (marks (key offer)) (rank offer))

def raised (marks : K → WithBot Q) (offers : List E) : K → WithBot Q := offers.foldl (raise key rank) marks

def accepted (marks : K → WithBot Q) : List E → List E
  | [] => []
  | offer :: rest =>
      if marks (key offer) ≤ rank offer then offer :: accepted (raise key rank marks offer) rest
      else accepted (raise key rank marks offer) rest

def Increasing (offers : List E) : Prop := offers.Pairwise fun a b => key a = key b → rank a < rank b

structure Repeats (marks : K → WithBot Q) (before : List E) (offer : E) : Prop where
  earlier : ∃ other ∈ before, key other = key offer ∧ rank other = rank offer
  passes : raised key rank marks before (key offer) ≤ rank offer

variable (marks : K → WithBot Q)

theorem raise_own (offer : E) : raise key rank marks offer (key offer) = max (marks (key offer)) (rank offer) := Function.update_self ..

theorem raise_other (offer : E) (k : K) (other : k ≠ key offer) :
    raise key rank marks offer k = marks k := Function.update_of_ne other ..

theorem lt_raised (offers : List E) (k : K) (q : Q) : (q : WithBot Q) < raised key rank marks offers k ↔
    (q : WithBot Q) < marks k ∨ ∃ offer ∈ offers, key offer = k ∧ q < rank offer := by
  induction offers generalizing marks with
  | nil => simp [raised]
  | cons offer rest ih =>
      refine (ih (raise key rank marks offer)).trans ?_
      by_cases own : key offer = k
      · subst own
        simp [raise_own, or_assoc]
      · rw [raise_other key rank marks offer k (Ne.symm own)]
        simp [own]

theorem prefix_cons {first last : E} {before rest : List E} (isPrefix : before ++ [last] <+: first :: rest) :
    (before = [] ∧ last = first) ∨ ∃ between, before = first :: between ∧ between ++ [last] <+: rest := by
  cases before with
  | nil => exact Or.inl ⟨rfl, by simpa using isPrefix⟩
  | cons head between =>
      obtain ⟨rfl, inside⟩ := List.cons_prefix_cons.mp isPrefix
      exact Or.inr ⟨between, rfl, inside⟩

theorem mem_accepted (offers : List E) (offer : E) : offer ∈ accepted key rank marks offers ↔
    ∃ before, before ++ [offer] <+: offers ∧ raised key rank marks before (key offer) ≤ rank offer := by
  induction offers generalizing marks with
  | nil => simp [accepted]
  | cons first rest ih =>
      have listed : offer ∈ accepted key rank marks (first :: rest) ↔
          (offer = first ∧ marks (key offer) ≤ rank offer) ∨ offer ∈ accepted key rank (raise key rank marks first) rest := by
        rw [accepted]
        by_cases same : offer = first
        · subst same
          by_cases passes : marks (key offer) ≤ rank offer <;> simp [passes]
        · split <;> simp [same]
      rw [listed, ih]
      constructor
      · rintro (⟨rfl, passes⟩ | ⟨before, inside, passes⟩)
        · exact ⟨[], by simp, passes⟩
        · exact ⟨first :: before, List.cons_prefix_cons.mpr ⟨rfl, inside⟩, passes⟩
      · rintro ⟨before, isPrefix, passes⟩
        obtain ⟨rfl, rfl⟩ | ⟨between, rfl, inside⟩ := prefix_cons isPrefix
        · exact Or.inl ⟨rfl, passes⟩
        · exact Or.inr ⟨between, inside, passes⟩

theorem accepted_above (offers : List E) (offer : E) (member : offer ∈ accepted key rank marks offers) :
    marks (key offer) ≤ rank offer := by
  obtain ⟨before, _, passes⟩ := (mem_accepted key rank marks offers offer).mp member
  by_contra below
  exact not_lt_of_ge passes ((lt_raised key rank marks before _ _).mpr (Or.inl (not_le.mp below)))

theorem accepted_behind (first : E) (rest : List E) (offer : E) (member : offer ∈ accepted key rank (raise key rank marks first) rest)
    (owner : key first = key offer) : marks (key first) ≤ rank offer ∧ rank first ≤ rank offer := by
  have beyond := accepted_above key rank _ rest offer member
  rw [← owner, raise_own] at beyond
  exact ⟨le_trans (le_max_left _ _) beyond, WithBot.coe_le_coe.mp (le_trans (le_max_right _ _) beyond)⟩

theorem accepted_rising (offers : List E) : (accepted key rank marks offers).Pairwise fun a b => key a = key b → rank a ≤ rank b := by
  induction offers generalizing marks with
  | nil => exact List.Pairwise.nil
  | cons first rest ih =>
      rw [accepted]
      split
      · exact List.pairwise_cons.mpr ⟨fun offer member owner => (accepted_behind key rank marks first rest offer member owner).2, ih _⟩
      · exact ih _

theorem accepted_increasing (offers : List E) : Increasing key rank (accepted key rank marks offers) ↔
    ∀ before offer, before ++ [offer] <+: offers → ¬ Repeats key rank marks before offer := by
  induction offers generalizing marks with
  | nil => simp [accepted, Increasing]
  | cons first rest ih =>
      have peeled : (∀ before offer, before ++ [offer] <+: first :: rest → ¬ Repeats key rank marks before offer) ↔
          Increasing key rank (accepted key rank (raise key rank marks first) rest) ∧
          ∀ offer ∈ accepted key rank (raise key rank marks first) rest, key first = key offer → rank first ≠ rank offer := by
        rw [ih]
        constructor
        · intro fresh
          constructor
          · rintro before offer inside ⟨⟨other, member, same⟩, passes⟩
            exact fresh (first :: before) offer (List.cons_prefix_cons.mpr ⟨rfl, inside⟩)
              ⟨⟨other, List.mem_cons_of_mem _ member, same⟩, passes⟩
          · intro offer member owner same
            obtain ⟨before, inside, passes⟩ := (mem_accepted key rank _ rest offer).mp member
            exact fresh (first :: before) offer (List.cons_prefix_cons.mpr ⟨rfl, inside⟩)
              ⟨⟨first, List.mem_cons_self, owner, same⟩, passes⟩
        · rintro ⟨fresh, unlike⟩ before offer isPrefix ⟨⟨other, member, owner, same⟩, passes⟩
          obtain ⟨rfl, _⟩ | ⟨between, rfl, inside⟩ := prefix_cons isPrefix
          · cases member
          · obtain rfl | member := List.mem_cons.mp member
            · exact unlike offer ((mem_accepted key rank _ rest offer).mpr ⟨between, inside, passes⟩) owner same
            · exact fresh between offer inside ⟨⟨other, member, owner, same⟩, passes⟩
      have above := accepted_behind key rank marks first rest
      rw [peeled, accepted]
      split
      · rw [Increasing, List.pairwise_cons, and_comm]
        refine and_congr_right fun _ => forall₂_congr fun offer member => forall_congr' fun owner => ?_
        exact ⟨ne_of_lt, lt_of_le_of_ne (above offer member owner).2⟩
      · next below =>
          refine (and_iff_left fun offer member owner same => ?_).symm
          exact below (le_trans (above offer member owner).1 (WithBot.coe_le_coe.mpr same.ge))

end Watermark

end Kit
