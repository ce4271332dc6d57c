import Mathlib.Algebra.BigOperators.Group.Finset.Basic
import Mathlib.Algebra.Order.BigOperators.Group.Finset
import Mathlib.Data.BitVec
import Mathlib.Data.Finmap
import Mathlib.Data.Finset.Fold

set_option autoImplicit false

namespace Kit

-- A key/value database as a finite map. Equality is extensional, so two
-- tables that answer every query alike are the same table.
def Table (K V : Type) := Finmap (fun _ : K => V)

namespace Table

variable {K V M : Type} [DecidableEq K]

def empty : Table K V := (∅ : Finmap (fun _ : K => V))

def get (t : Table K V) (k : K) : Option V := Finmap.lookup k t

def put (t : Table K V) (k : K) (v : V) : Table K V := Finmap.insert (β := fun _ : K => V) k v t

def del (t : Table K V) (k : K) : Table K V := Finmap.erase k t

def keys (t : Table K V) : Finset K := Finmap.keys t

def size (t : Table K V) : Nat := t.keys.card

instance [DecidableEq V] : DecidableEq (Table K V) := inferInstanceAs (DecidableEq (Finmap _))

@[simp] theorem get_empty (k : K) : (empty : Table K V).get k = none :=
  Finmap.lookup_empty k

theorem get_put (t : Table K V) (k query : K) (v : V) :
    (t.put k v).get query = if query = k then some v else t.get query := by
  by_cases same : query = k
  · subst same
    rw [if_pos rfl]
    exact Finmap.lookup_insert t
  · rw [if_neg same]
    exact Finmap.lookup_insert_of_ne t same

theorem get_del (t : Table K V) (k query : K) :
    (t.del k).get query = if query = k then none else t.get query := by
  by_cases same : query = k
  · subst same
    rw [if_pos rfl]
    exact Finmap.lookup_erase query t
  · rw [if_neg same]
    exact Finmap.lookup_erase_ne same

@[simp] theorem get_put_self (t : Table K V) (k : K) (v : V) : (t.put k v).get k = some v := by
  rw [get_put, if_pos rfl]

theorem get_put_ne (t : Table K V) (k query : K) (v : V) (different : query ≠ k) :
    (t.put k v).get query = t.get query := by
  rw [get_put, if_neg different]

theorem put_some (t : Table K V) (k query : K) (v w : V) (present : (t.put k v).get query = some w) :
    query = k ∧ w = v ∨ t.get query = some w := by
  rw [get_put] at present
  split at present
  · next new => exact Or.inl ⟨new, (Option.some.inj present).symm⟩
  · exact Or.inr present

@[simp] theorem get_del_self (t : Table K V) (k : K) : (t.del k).get k = none := by
  rw [get_del, if_pos rfl]

theorem get_del_ne (t : Table K V) (k query : K) (different : query ≠ k) :
    (t.del k).get query = t.get query := by
  rw [get_del, if_neg different]

theorem del_some (t : Table K V) (k query : K) (w : V) (present : (t.del k).get query = some w) : query ≠ k ∧ t.get query = some w := by
  rw [get_del] at present
  split at present
  · cases present
  · next other => exact ⟨other, present⟩

theorem ext_get (t u : Table K V) (same : ∀ k, t.get k = u.get k) : t = u :=
  Finmap.ext_lookup same

theorem put_same (t : Table K V) (k : K) (v : V) (present : t.get k = some v) : t.put k v = t := by
  apply ext_get
  intro query
  rw [get_put]
  split
  · next same => rw [same, present]
  · rfl

theorem put_put (t : Table K V) (k : K) (v w : V) : (t.put k v).put k w = t.put k w := by
  apply ext_get
  intro query
  rw [get_put, get_put, get_put]
  split <;> rfl

theorem put_del_self (t : Table K V) (k : K) (v : V) (present : t.get k = some v) : (t.del k).put k v = t := by
  apply ext_get
  intro query
  rw [get_put, get_del]
  split
  · next same => rw [same, present]
  · rfl

theorem mem_keys (t : Table K V) (k : K) : k ∈ t.keys ↔ t.get k ≠ none := by
  have member : k ∈ t.keys ↔ ¬ t.get k = none :=
    Finmap.mem_keys.trans (not_iff_not.mpr Finmap.lookup_eq_none |>.trans not_not).symm
  exact member

theorem keys_put (t : Table K V) (k : K) (v : V) : (t.put k v).keys = insert k t.keys := by
  ext query
  rw [mem_keys, get_put, Finset.mem_insert, mem_keys]
  by_cases same : query = k <;> simp [same]

theorem keys_del (t : Table K V) (k : K) : (t.del k).keys = t.keys.erase k := by
  ext query
  rw [mem_keys, get_del, Finset.mem_erase, mem_keys]
  by_cases same : query = k <;> simp [same]

theorem size_put (t : Table K V) (k : K) (v : V) (absent : t.get k = none) : (t.put k v).size = t.size + 1 := by
  unfold size
  rw [keys_put]
  exact Finset.card_insert_of_notMem fun present => (mem_keys t k).mp present absent

theorem size_del (t : Table K V) (k : K) (v : V) (present : t.get k = some v) :
    (t.del k).size + 1 = t.size := by
  unfold size
  rw [keys_del]
  exact Finset.card_erase_add_one ((mem_keys t k).mpr (by simp [present]))

section Fold

variable (op : M → M → M) [Std.Commutative op] [Std.Associative op] (e : M) (f : K → V → M)

-- Combine one value per entry with a commutative operation, so that the order
-- in which a cursor would visit the entries cannot matter.
def fold (t : Table K V) : M := t.keys.fold op e fun k => ((t.get k).map (f k)).getD e

theorem fold_empty : fold op e f (empty : Table K V) = e := by
  have none : (empty : Table K V).keys = ∅ := Finmap.keys_empty
  rw [fold, none, Finset.fold_empty]

theorem fold_congr {W : Type} (t : Table K V) (u : Table K W) (g : K → W → M)
    (same : ∀ k, (t.get k).map (f k) = (u.get k).map (g k)) : fold op e f t = fold op e g u := by
  have keysEq : t.keys = u.keys := by
    ext k
    have absent : t.get k = none ↔ u.get k = none := by
      rw [← Option.map_eq_none_iff (f := f k), same k, Option.map_eq_none_iff]
    rw [mem_keys, mem_keys, ne_eq, ne_eq, absent]
  rw [fold, fold, keysEq]
  exact Finset.fold_congr fun k _ => by rw [same k]

theorem fold_put_fresh (t : Table K V) (k : K) (v : V) (absent : t.get k = none) :
    fold op e f (t.put k v) = op (f k v) (fold op e f t) := by
  have fresh : k ∉ t.keys := fun member => (mem_keys t k).mp member absent
  rw [fold, keys_put, Finset.fold_insert fresh, get_put_self]
  congr 1
  refine Finset.fold_congr fun query member => ?_
  rw [get_put_ne t k query v fun same => fresh (same ▸ member)]

theorem fold_del (t : Table K V) (k : K) (v : V) (present : t.get k = some v) :
    fold op e f t = op (f k v) (fold op e f (t.del k)) := by
  rw [← fold_put_fresh op e f (t.del k) k v (get_del_self t k), put_del_self t k v present]

theorem fold_change (g : K → V → M) (t : Table K V) (k : K) (v : V) (present : t.get k = some v)
    (same : ∀ query w, query ≠ k → t.get query = some w → f query w = g query w) :
    op (f k v) (fold op e g t) = op (g k v) (fold op e f t) := by
  have rest : fold op e f (t.del k) = fold op e g (t.del k) := by
    apply fold_congr
    intro query
    rw [get_del]
    split
    · rfl
    · next other =>
        cases found : t.get query with
        | none => rfl
        | some w => rw [Option.map_some, Option.map_some, same query w other found]
  rw [fold_del op e g t k v present, fold_del op e f t k v present, rest]
  exact LeftCommutative.left_comm _ _ _

end Fold

abbrev sum (f : K → V → Nat) (t : Table K V) : Nat := fold (M := Nat) (· + ·) 0 f t

theorem del_absent (t : Table K V) (k : K) (absent : t.get k = none) : t.del k = t := by
  apply ext_get
  intro query
  rw [get_del]
  split
  · next same => rw [same, absent]
  · rfl

theorem sum_del (f : K → V → Nat) (t : Table K V) (k : K) : (t.del k).sum f + ((t.get k).map (f k)).getD 0 = t.sum f := by
  cases found : t.get k with
  | none =>
      rw [del_absent t k found]
      rfl
  | some v =>
      have split := fold_del (M := Nat) (· + ·) 0 f t k v found
      change t.sum f = f k v + (t.del k).sum f at split
      rw [split, Nat.add_comm]
      rfl

theorem sum_replace (f : K → V → Nat) (t : Table K V) {k : K} {old : V} (new : V) (present : t.get k = some old) :
    (t.put k new).sum f + f k old = t.sum f + f k new := by
  have same : (t.put k new).del k = t.del k := by
    apply ext_get
    intro query
    rw [get_del, get_del, get_put]
    split <;> rfl
  have before := sum_del f t k
  have after := sum_del f (t.put k new) k
  rw [present, Option.map_some, Option.getD_some] at before
  rw [same, get_put_self, Option.map_some, Option.getD_some] at after
  omega

theorem le_sum (f : K → V → Nat) (t : Table K V) (k : K) (v : V) (present : t.get k = some v) :
    f k v ≤ t.sum f := by
  have whole := sum_del f t k
  rw [present, Option.map_some, Option.getD_some] at whole
  omega

theorem sum_zero (f : K → V → Nat) (t : Table K V) (none : ∀ k v, t.get k = some v → f k v = 0) : t.sum f = 0 := by
  refine Finset.sum_eq_zero fun k member => ?_
  obtain ⟨v, present⟩ := Option.ne_none_iff_exists'.mp ((mem_keys t k).mp member)
  rw [present, Option.map_some, Option.getD_some, none k v present]

theorem sum_le_sum (f g : K → V → Nat) (t : Table K V) (less : ∀ k v, t.get k = some v → f k v ≤ g k v) : t.sum f ≤ t.sum g := by
  refine Finset.sum_le_sum fun k member => ?_
  obtain ⟨v, present⟩ := Option.ne_none_iff_exists'.mp ((mem_keys t k).mp member)
  simp only [present, Option.map_some, Option.getD_some]
  exact less k v present

abbrev wordSum {w : Nat} (f : K → V → BitVec w) (t : Table K V) : BitVec w := fold (M := BitVec w) (· + ·) 0 f t

theorem fold_toNat {w : Nat} (f : K → V → BitVec w) (t : Table K V) :
    (wordSum f t).toNat = t.sum (fun k v => (f k v).toNat) % 2 ^ w := by
  have values : ∀ keys : Finset K, (keys.fold (fun a b : BitVec w => a + b) 0 fun k => ((t.get k).map (f k)).getD 0).toNat =
      (∑ k ∈ keys, ((t.get k).map fun v => (f k v).toNat).getD 0) % 2 ^ w := by
    intro keys
    induction keys using Finset.induction_on with
    | empty => simp
    | insert k keys fresh ih =>
        rw [Finset.fold_insert fresh, Finset.sum_insert fresh, BitVec.toNat_add, ih, Nat.add_mod_mod]
        cases t.get k <;> simp
  exact values t.keys

-- Two tables whose entries other than the unit correspond one to one have the same total.
theorem fold_reindex {J W : Type} [DecidableEq J] (op : M → M → M) [Std.Commutative op] [Std.Associative op] (unit : M)
    (neutral : ∀ a, op a unit = a) (t : Table K V) (u : Table J W) (f : K → V → M) (g : J → W → M) (e : J → W → K)
    (maps : ∀ j w, u.get j = some w → g j w ≠ unit → ∃ v, t.get (e j w) = some v ∧ f (e j w) v = g j w)
    (injective : ∀ j w i x, u.get j = some w → u.get i = some x → g j w ≠ unit → g i x ≠ unit → e j w = e i x → j = i)
    (onto : ∀ k v, t.get k = some v → f k v ≠ unit → ∃ j w, u.get j = some w ∧ g j w ≠ unit ∧ e j w = k) :
    u.fold op unit g = t.fold op unit f := by
  -- The library's rule is for sums, so the operation is made one.
  let total : AddCommMonoid M :=
    { add := op
      zero := unit
      add_assoc := Std.Associative.assoc
      add_comm := Std.Commutative.comm
      zero_add := fun a => (Std.Commutative.comm _ _).trans (neutral a)
      add_zero := neutral
      nsmul := @nsmulRec M ⟨unit⟩ ⟨op⟩ }
  have some_of : ∀ j, j ∈ u.keys → (u.get j).isSome = true := fun j member =>
    Option.isSome_iff_ne_none.mpr ((mem_keys u j).mp member)
  have value : ∀ j w, u.get j = some w → ((u.get j).map (g j)).getD unit = g j w := fun j w found => by rw [found]; rfl
  refine Finset.sum_bij_ne_zero (M := M) (fun j member _ => e j ((u.get j).get (some_of j member))) ?_ ?_ ?_ ?_
  · intro j member nonzero
    obtain ⟨w, found⟩ := Option.isSome_iff_exists.mp (some_of j member)
    rw [value j w found] at nonzero
    obtain ⟨v, present, _⟩ := maps j w found nonzero
    simp only [found, Option.get_some]
    exact (mem_keys t _).mpr (by simp [present])
  · intro j member nonzero i member' nonzero' same
    obtain ⟨w, found⟩ := Option.isSome_iff_exists.mp (some_of j member)
    obtain ⟨x, found'⟩ := Option.isSome_iff_exists.mp (some_of i member')
    rw [value j w found] at nonzero
    rw [value i x found'] at nonzero'
    simp only [found, found', Option.get_some] at same
    exact injective j w i x found found' nonzero nonzero' same
  · intro k member nonzero
    obtain ⟨v, present⟩ := Option.ne_none_iff_exists'.mp ((mem_keys t k).mp member)
    simp only [present, Option.map_some, Option.getD_some] at nonzero
    obtain ⟨j, w, found, positive, same⟩ := onto k v present nonzero
    refine ⟨j, (mem_keys u j).mpr (by simp [found]), by rw [value j w found]; exact positive, ?_⟩
    simp only [found, Option.get_some]
    exact same
  · intro j member nonzero
    obtain ⟨w, found⟩ := Option.isSome_iff_exists.mp (some_of j member)
    rw [value j w found] at nonzero ⊢
    obtain ⟨v, present, same⟩ := maps j w found nonzero
    simp only [found, Option.get_some, present, Option.map_some, Option.getD_some]
    exact same.symm

theorem sum_add (f g : K → V → Nat) (t : Table K V) : t.sum f + t.sum g = t.sum fun k v => f k v + g k v := by
  refine Eq.trans Finset.sum_add_distrib.symm (Finset.sum_congr rfl fun k _ => ?_)
  cases t.get k <;> rfl

theorem sum_swap {J W : Type} [DecidableEq J] (t : Table K V) (u : Table J W) (f : K → V → J → W → Nat) :
    (t.sum fun k v => u.sum (f k v)) = u.sum fun j w => t.sum fun k v => f k v j w := by
  have spread : ∀ k, ((t.get k).map fun v => u.sum (f k v)).getD 0 =
      ∑ j ∈ u.keys, ((t.get k).map fun v => ((u.get j).map (f k v j)).getD 0).getD 0 := by
    intro k
    cases t.get k with
    | none => exact Finset.sum_const_zero.symm
    | some v => rfl
  have gather : ∀ j, ((u.get j).map fun w => t.sum fun k v => f k v j w).getD 0 =
      ∑ k ∈ t.keys, ((t.get k).map fun v => ((u.get j).map (f k v j)).getD 0).getD 0 := by
    intro j
    cases u.get j with
    | none =>
        refine (Finset.sum_eq_zero fun k _ => ?_).symm
        cases t.get k <;> rfl
    | some w => rfl
  calc (t.sum fun k v => u.sum (f k v))
      = ∑ k ∈ t.keys, ∑ j ∈ u.keys, ((t.get k).map fun v => ((u.get j).map (f k v j)).getD 0).getD 0 :=
        Finset.sum_congr rfl fun k _ => spread k
    _ = ∑ j ∈ u.keys, ∑ k ∈ t.keys, ((t.get k).map fun v => ((u.get j).map (f k v j)).getD 0).getD 0 := Finset.sum_comm
    _ = u.sum fun j w => t.sum fun k v => f k v j w := Finset.sum_congr rfl fun j _ => (gather j).symm

theorem sum_pick_le (t : Table K V) (picked : Option K) (c : Nat) : (t.sum fun k _ => if picked = some k then c else 0) ≤ c := by
  cases picked with
  | none =>
      refine Nat.le_trans (Nat.le_of_eq (Finset.sum_eq_zero fun k _ => ?_)) (Nat.zero_le c)
      cases t.get k <;> simp
  | some key =>
      have whole := sum_del (fun k _ => if some key = some k then c else 0) t key
      have rest : (t.del key).sum (fun k _ => if some key = some k then c else 0) = 0 := by
        refine Finset.sum_eq_zero fun k member => ?_
        have other : k ≠ key := by
          rintro rfl
          exact (mem_keys _ k).mp member (get_del_self t k)
        cases (t.del key).get k <;> simp [Ne.symm other]
      rw [rest, Nat.zero_add] at whole
      rw [← whole]
      cases t.get key <;> simp

-- Iterating over a hash map meets every entry once, in an order of the map's own.
structure Lists (t : Table K V) (order : List (K × V)) : Prop where
  once : (order.map Prod.fst).Nodup
  entries : ∀ k v, (k, v) ∈ order ↔ t.get k = some v

theorem lists_empty : (empty : Table K V).Lists [] := ⟨List.nodup_nil, by simp⟩

theorem lists_put (t : Table K V) (order : List (K × V)) (k : K) (v : V) (lists : t.Lists order) (fresh : t.get k = none) :
    (t.put k v).Lists ((k, v) :: order) := by
  have unlisted : ∀ w, (k, w) ∉ order := by
    intro w member
    rw [(lists.entries k w).mp member] at fresh
    cases fresh
  refine ⟨List.nodup_cons.mpr ⟨?_, lists.once⟩, fun query w => ?_⟩
  · intro member
    obtain ⟨⟨_, w⟩, listed, rfl⟩ := List.mem_map.mp member
    exact unlisted w listed
  · rw [List.mem_cons, get_put, lists.entries, Prod.mk.injEq]
    by_cases same : query = k
    · subst same
      simp [fresh, eq_comm]
    · simp [same]

theorem lists_cons (t : Table K V) (k : K) (v : V) (rest : List (K × V)) (lists : t.Lists ((k, v) :: rest)) :
    t.get k = some v ∧ (t.del k).Lists rest := by
  obtain ⟨unlisted, once⟩ := List.nodup_cons.mp lists.once
  refine ⟨(lists.entries k v).mp List.mem_cons_self, once, fun query w => ?_⟩
  rw [get_del]
  by_cases same : query = k
  · subst same
    simp only [if_true, reduceCtorEq, iff_false]
    exact fun member => unlisted (List.mem_map.mpr ⟨_, member, rfl⟩)
  · rw [if_neg same, ← lists.entries, List.mem_cons, Prod.mk.injEq]
    simp [same]

theorem lists_nil (t : Table K V) (lists : t.Lists []) : t = empty := by
  apply ext_get
  intro k
  rw [get_empty]
  by_contra present
  obtain ⟨v, found⟩ := Option.ne_none_iff_exists'.mp present
  exact List.not_mem_nil ((lists.entries k v).mpr found)

theorem keys_none (t : Table K V) (none : t.keys = ∅) : t = empty := by
  apply ext_get
  intro k
  rw [get_empty]
  by_contra present
  have member := (mem_keys t k).mpr present
  rw [none] at member
  exact Finset.notMem_empty k member

theorem exists_lists (t : Table K V) : ∃ order, t.Lists order := by
  induction size : t.size generalizing t with
  | zero => exact ⟨[], keys_none t (Finset.card_eq_zero.mp size) ▸ lists_empty⟩
  | succ count ih =>
      obtain ⟨k, member⟩ := Finset.card_pos.mp (Nat.lt_of_lt_of_eq (Nat.succ_pos count) size.symm)
      obtain ⟨v, present⟩ := Option.ne_none_iff_exists'.mp ((mem_keys t k).mp member)
      obtain ⟨order, lists⟩ := ih (t.del k) (Nat.succ.inj ((size_del t k v present).trans size))
      have whole := lists_put (t.del k) order k v lists (get_del_self t k)
      rw [put_del_self t k v present] at whole
      exact ⟨_, whole⟩

theorem lists_perm (t : Table K V) (order other : List (K × V)) (moved : order.Perm other) (lists : t.Lists order) : t.Lists other :=
  ⟨(moved.map Prod.fst).nodup_iff.mp lists.once, fun k v => moved.mem_iff.symm.trans (lists.entries k v)⟩

theorem exists_lists_last (t : Table K V) (k : K) (v : V) (present : t.get k = some v) : ∃ order, t.Lists (order ++ [(k, v)]) := by
  obtain ⟨order, lists⟩ := exists_lists (t.del k)
  have whole := lists_put (t.del k) order k v lists (get_del_self t k)
  rw [put_del_self t k v present] at whole
  exact ⟨order, lists_perm t _ _ (List.perm_append_singleton (k, v) order).symm whole⟩

theorem lists_fold (op : M → M → M) [Std.Commutative op] [Std.Associative op] (e : M) (f : K → V → M) (t : Table K V)
    (order : List (K × V)) (lists : t.Lists order) :
    order.foldr (fun entry total => op (f entry.1 entry.2) total) e = t.fold op e f := by
  induction order generalizing t with
  | nil =>
      rw [lists_nil t lists]
      exact (fold_empty _ _ _).symm
  | cons entry rest ih =>
      obtain ⟨present, remaining⟩ := lists_cons t entry.1 entry.2 rest lists
      rw [List.foldr_cons, ih _ remaining, fold_del op e f t entry.1 entry.2 present]

theorem lists_sum (f : K → V → Nat) (t : Table K V) (order : List (K × V)) (lists : t.Lists order) :
    (order.map fun entry => f entry.1 entry.2).sum = t.sum f := by
  rw [List.sum_eq_foldr, List.foldr_map]
  exact lists_fold (M := Nat) (· + ·) 0 f t order lists

theorem put_entries {E : Type} (key : E → K) (value : E → V) (entries : List E) (once : (entries.map key).Nodup) (t : Table K V) :
    (∀ entry ∈ entries, (entries.foldl (fun t entry => t.put (key entry) (value entry)) t).get (key entry) = some (value entry)) ∧
    ∀ k, k ∉ entries.map key → (entries.foldl (fun t entry => t.put (key entry) (value entry)) t).get k = t.get k := by
  induction entries generalizing t with
  | nil => exact ⟨fun _ member => absurd member List.not_mem_nil, fun _ _ => rfl⟩
  | cons first rest ih =>
      obtain ⟨unlisted, once⟩ := List.nodup_cons.mp once
      obtain ⟨inside, outside⟩ := ih once (t.put (key first) (value first))
      refine ⟨List.forall_mem_cons.mpr ⟨?_, inside⟩, fun k other => ?_⟩
      · rw [List.foldl_cons, outside _ unlisted, get_put_self]
      · obtain ⟨different, absent⟩ := not_or.mp (List.mem_cons.not.mp other)
        rw [List.foldl_cons, outside k absent, get_put_ne _ _ _ _ different]

theorem put_all_get {W : Type} (encode : V → W) (t : Table K V) (order : List (K × V)) (lists : t.Lists order) (u : Table K W) (k : K) :
    (order.foldl (fun u entry => u.put entry.1 (encode entry.2)) u).get k = ((t.get k).map encode).or (u.get k) := by
  induction order generalizing t u with
  | nil =>
      rw [lists_nil t lists, get_empty]
      rfl
  | cons entry rest ih =>
      obtain ⟨present, remaining⟩ := lists_cons t entry.1 entry.2 rest lists
      rw [List.foldl_cons, ih _ remaining, get_del, get_put]
      by_cases own : k = entry.1
      · subst own
        rw [if_pos rfl, if_pos rfl, present]
        rfl
      · rw [if_neg own, if_neg own]

theorem exists_map {W : Type} (encode : V → W) (t : Table K V) : ∃ u : Table K W, ∀ k, u.get k = (t.get k).map encode := by
  obtain ⟨order, lists⟩ := exists_lists t
  refine ⟨order.foldl (fun u entry => u.put entry.1 (encode entry.2)) empty, fun k => ?_⟩
  rw [put_all_get encode t order lists, get_empty, Option.or_none]

theorem group_get {E A : Type} [AddMonoid A] (key : E → K) (value : E → A) (entries : List E) (t : Table K A) (k : K) :
    (entries.foldl (fun t entry => t.put (key entry) ((t.get (key entry)).getD 0 + value entry)) t).get k =
      if ∃ entry ∈ entries, key entry = k then
        some ((t.get k).getD 0 + (entries.map fun entry => if key entry = k then value entry else 0).sum) else t.get k := by
  induction entries generalizing t with
  | nil => simp
  | cons entry rest ih =>
      rw [List.foldl_cons, ih, get_put]
      by_cases own : k = key entry
      · subst own
        have listed : ∃ other ∈ entry :: rest, key other = key entry := ⟨entry, List.mem_cons_self, rfl⟩
        rw [if_pos listed, if_pos rfl, Option.getD_some, List.map_cons, List.sum_cons, if_pos rfl, ← add_assoc]
        split
        · rfl
        · next unlisted =>
            have nothing : (rest.map fun other => if key other = key entry then value other else 0).sum = 0 := by
              apply List.sum_eq_zero
              intro amount member
              obtain ⟨other, inside, rfl⟩ := List.mem_map.mp member
              exact if_neg fun same => unlisted ⟨other, inside, same⟩
            rw [nothing, add_zero]
      · rw [if_neg own, List.map_cons, List.sum_cons, if_neg (Ne.symm own), zero_add]
        simp only [List.mem_cons, exists_eq_or_imp, Ne.symm own, false_or]

end Table

end Kit
