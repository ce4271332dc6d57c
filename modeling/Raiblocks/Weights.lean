import Raiblocks.Supply

set_option autoImplicit false

namespace Rai

open Kit

def representativeAt (s : Store) (h : Hash) : Option Account :=
  match blockGet s h with
  | .ok (some block) => some block.representative
  | _ => none

inductive LatestNaming (s : Store) : Hash → Hash → Prop where
  | here (h : Hash) (block : Block) (read : blockGet s h = .ok (some block))
      (names : block.kind = .openBlock ∨ block.kind = .changeBlock) : LatestNaming s h h
  | lower (h r : Hash) (block : Block) (read : blockGet s h = .ok (some block))
      (keeps : ¬ (block.kind = .openBlock ∨ block.kind = .changeBlock)) (rest : LatestNaming s block.previous r) : LatestNaming s h r

section Reading

variable {env : Env} {L : Lattice} {s : Store} (consistent : Consistent env L) (agrees : Agrees L s)
include agrees

theorem representative_stored (h : Hash) (n : Note) (stored : L.get h = some n) :
    representativeAt s h = some n.block.representative := by
  obtain ⟨found, read, same⟩ := get_reads_as agrees.blocks h n stored
  rw [representativeAt, read]
  exact congrArg some (reads_as_representative n.block found same)

include consistent

theorem latest_naming [HashesApart env] (h : Hash) (n : Note) (stored : L.get h = some n) : LatestNaming s h n.repBlock := by
  apply chain_induction consistent (fun h n => LatestNaming s h n.repBlock) _ _ h n stored
  · intro h n stored first
    obtain ⟨found, read, same⟩ := get_reads_as agrees.blocks h n stored
    rw [(stored_open consistent stored first).2.1]
    refine LatestNaming.here h found read (Or.inl ?_)
    rw [reads_as_kind n.block same]
    exact (previous_zero_iff consistent stored).mp first
  · intro h n before stored present follows rest
    obtain ⟨found, read, same⟩ := get_reads_as agrees.blocks h n stored
    have kind := reads_as_kind n.block same
    by_cases changes : n.block.kind = .changeBlock
    · rw [(follows.changes changes).1]
      exact LatestNaming.here h found read (Or.inr (kind.trans changes))
    · rw [follows.inherits changes]
      rw [← reads_as_previous n.block same] at rest
      refine LatestNaming.lower h _ found read ?_ rest
      rw [kind]
      rintro (opens | changes')
      · rw [open_previous n.block opens] at present
        rw [zero_not_stored consistent] at present
        cases present
      · exact changes changes'

end Reading

theorem heads_congr {A : Type} (op : A → A → A) [Std.Commutative op] [Std.Associative op] (e : A) (f g : Hash → Note → A) (L : Lattice)
    (same : ∀ h n, L.get h = some n → f h n = g h n) : Lattice.heads op e f L = Lattice.heads op e g L := by
  refine Table.fold_congr op e _ L L _ fun h => ?_
  cases found : L.get h with
  | none => rw [Option.map_none, Option.map_none]
  | some n => rw [Option.map_some, Option.map_some, same h n found]

theorem heads_le (f g : Hash → Note → Nat) (L : Lattice) (less : ∀ h n, f h n ≤ g h n) :
    Lattice.heads (A := Nat) (· + ·) 0 f L ≤ Lattice.heads (A := Nat) (· + ·) 0 g L := by
  refine Table.sum_le_sum _ _ L fun h n _ => ?_
  split
  · exact less h n
  · exact Nat.le_refl 0

theorem heads_toNat {w : Nat} (f : Hash → Note → BitVec w) (L : Lattice) : (Lattice.heads (A := BitVec w) (· + ·) 0 f L).toNat =
    Lattice.heads (A := Nat) (· + ·) 0 (fun h n => (f h n).toNat) L % 2 ^ w := by
  refine (Table.fold_toNat _ L).trans (congrArg (· % 2 ^ w) ?_)
  refine Table.fold_congr _ _ _ L L _ fun h => congrArg (fun value => (L.get h).map value) (funext fun n => ?_)
  by_cases last : L.succ h = 0
  · rw [if_pos last, if_pos last]
  · rw [if_neg last, if_neg last]
    exact BitVec.toNat_zero

-- The weights cannot wrap, because together they are at most what circulates.
theorem weight_toNat (env : Env) (L : Lattice) [HashesApart env] (consistent : Consistent env L) (r : Account) :
    (L.weight r).toNat = Lattice.heads (A := Nat) (· + ·) 0 (fun _ n => (L.share r n).toNat) L := by
  have total := lattice_supply env L consistent
  have bound : Lattice.heads (A := Nat) (· + ·) 0 (fun _ n => (L.share r n).toNat) L ≤ L.circulating := by
    refine heads_le _ _ L fun h n => ?_
    unfold Lattice.share
    split
    · exact Nat.le_refl _
    · exact Nat.zero_le _
  have small : Lattice.heads (A := Nat) (· + ·) 0 (fun _ n => (L.share r n).toNat) L < 2 ^ 128 := by omega
  exact (heads_toNat _ L).trans (Nat.mod_eq_of_lt small)

theorem weight_delegated (env : Env) (L : Lattice) (s : Store) [HashesApart env] (consistent : Consistent env L) (agrees : Agrees L s)
    (r : Account) : (representationGet s r).toNat =
      s.accounts.sum fun _ info => if representativeAt s info.repBlock = some r then info.balance.toNat else 0 := by
  rw [agrees.weights, weight_toNat env L consistent]
  refine Eq.trans ?_ (accounts_sum consistent agrees
    fun _ repBlock balance => if representativeAt s repBlock = some r then balance.toNat else 0).symm
  apply heads_congr
  intro h n found
  obtain ⟨m, stored, _⟩ := rep_block_stored consistent found
  rw [representative_stored agrees n.repBlock m stored, Lattice.share, Lattice.rep, stored]
  simp only [Option.map_some, Option.getD_some, Option.some.injEq]
  split
  · rfl
  · exact BitVec.toNat_zero

-- Every representative's weight is the sum of the balances delegated to it, and
-- what an account delegates by is what the visitor would find from its head.
theorem representation_exact (env : Env) (apart : HashesApart env) (s : Store) (reached : Reachable env s) :
    (∀ r, (representationGet s r).toNat =
      s.accounts.sum fun _ info => if representativeAt s info.repBlock = some r then info.balance.toNat else 0) ∧
    ∀ account info, s.accounts.get account = some info → LatestNaming s info.head info.repBlock ∧
      ∃ bound, ∀ fuel, bound ≤ fuel → representativeCompute env s fuel info.head = .ok info.repBlock := by
  obtain ⟨L, consistent, agrees⟩ := reachable_agrees reached
  refine ⟨weight_delegated env L s consistent agrees, ?_⟩
  intro account info found
  obtain ⟨h, n, latest, _, same⟩ := account_owned agrees found
  rw [same]
  simp only [Note.info_head, Note.info_repBlock]
  refine ⟨latest_naming consistent agrees h n latest.1, n.height, fun fuel enough => ?_⟩
  obtain ⟨value, returned, rfl⟩ := settles_returns
    (representative_compute_settles consistent agrees.blocks fuel h n latest.1) enough
  exact returned

theorem representation_exact_sample : ∃ s, Replay sampleEnv sampleLog s ∧ (representationGet s (sampleKey 3)).toNat =
    s.accounts.sum fun _ info => if representativeAt s info.repBlock = some (sampleKey 3) then info.balance.toNat else 0 := by
  obtain ⟨s, replay⟩ := sample_replayed
  exact ⟨s, replay, (representation_exact sampleEnv sample_apart s (replay_reachable replay)).1 (sampleKey 3)⟩

end Rai
