import Raiblocks.Kit.Fuel
import Raiblocks.Kit.Table
import Mathlib.Data.Finset.Max

set_option autoImplicit false

namespace Kit

instance wordOrder {w : Nat} : LinearOrder (BitVec w) where
  le_refl := BitVec.le_refl
  le_trans _ _ _ := BitVec.le_trans
  le_antisymm _ _ := BitVec.le_antisymm
  lt_iff_le_not_ge _ _ := Nat.lt_iff_le_and_not_ge
  le_total := BitVec.le_total
  toDecidableLE := inferInstance
  toDecidableEq := inferInstance

theorem ascending_split {K V : Type} [LinearOrder K] (rows : List (K × V))
    (ascending : (rows.map Prod.fst).Pairwise (· < ·)) (low high : K) (ordered : low ≤ high) :
    rows.filter (fun row => low ≤ row.1) =
      rows.filter (fun row => low ≤ row.1 ∧ row.1 < high) ++ rows.filter (fun row => high ≤ row.1) := by
  induction rows with
  | nil => rfl
  | cons row rows ih =>
      have later := List.pairwise_cons.mp ascending
      by_cases inside : row.1 < high
      · by_cases above : low ≤ row.1 <;> simp [inside, above, ih later.2]
      · have beyond : high ≤ row.1 := not_lt.mp inside
        have rest : ∀ other ∈ rows, high ≤ other.1 := fun other member =>
          beyond.trans (later.1 other.1 (List.mem_map_of_mem member)).le
        have none : rows.filter (fun row => low ≤ row.1 ∧ row.1 < high) = [] :=
          List.filter_eq_nil_iff.mpr fun other member => by simp [not_lt.mpr (rest other member)]
        have all : rows.filter (fun row => low ≤ row.1) = rows.filter (fun row => high ≤ row.1) :=
          List.filter_congr fun other member => by simp [rest other member, ordered.trans (rest other member)]
        rw [List.filter_cons_of_pos (by simpa using ordered.trans beyond), List.filter_cons_of_neg (by simp [inside]),
          List.filter_cons_of_pos (by simpa using beyond), none, all, List.nil_append]

namespace Table

section Rows

variable {K V : Type} [DecidableEq K] [LinearOrder K]

def least (t : Table K V) : Option K := t.keys.min

def first (t : Table K V) : Option (K × V) := t.least.bind fun k => (t.get k).map fun v => (k, v)

-- `MDB_SET_RANGE`: the first entry from a key on.
def seek (t : Table K V) (bound : K) : Option (K × V) :=
  let key : Option K := (t.keys.filter (bound ≤ ·)).min
  key.bind fun k => (t.get k).map fun v => (k, v)

def scan : Nat → Table K V → List (K × V)
  | 0, _ => []
  | count + 1, t =>
      match t.first with
      | none => []
      | some (k, v) => (k, v) :: scan count (t.del k)

-- The entries as a cursor meets them, in the order of their keys. A loop that only rewrites or
-- removes the entry under its cursor meets the entries that were there when it began.
def rows (t : Table K V) : List (K × V) := scan t.size t

theorem first_present (t : Table K V) (k : K) (v : V) (found : t.first = some (k, v)) : t.get k = some v := by
  obtain ⟨key, _, reads⟩ := Option.bind_eq_some_iff.mp found
  obtain ⟨value, present, same⟩ := Option.map_eq_some_iff.mp reads
  obtain ⟨rfl, rfl⟩ := Prod.mk.inj same
  exact present

theorem first_none (t : Table K V) (none : t.first = none) : t = empty := by
  apply keys_none
  by_contra inhabited
  obtain ⟨k, head⟩ := Finset.min_of_nonempty (Finset.nonempty_of_ne_empty inhabited)
  obtain ⟨v, present⟩ := Option.ne_none_iff_exists'.mp ((mem_keys t k).mp (Finset.mem_of_min head))
  have least : t.least = some k := head
  rw [first, least, Option.bind_some, present] at none
  cases none

theorem seek_some (t : Table K V) (bound k : K) (v : V) (found : t.seek bound = some (k, v)) :
    t.get k = some v ∧ bound ≤ k ∧ ∀ other, t.get other ≠ none → bound ≤ other → k ≤ other := by
  obtain ⟨key, head, reads⟩ := Option.bind_eq_some_iff.mp found
  obtain ⟨value, present, same⟩ := Option.map_eq_some_iff.mp reads
  obtain ⟨rfl, rfl⟩ := Prod.mk.inj same
  have first : (t.keys.filter (bound ≤ ·)).min = (key : WithTop K) := head
  refine ⟨present, (Finset.mem_filter.mp (Finset.mem_of_min first)).2, fun other known above => ?_⟩
  exact Finset.min_le_of_eq (Finset.mem_filter.mpr ⟨(mem_keys t other).mpr known, above⟩) first

theorem seek_none (t : Table K V) (bound : K) (none : t.seek bound = none) (other : K) (known : t.get other ≠ Option.none) :
    other < bound := by
  by_contra above
  obtain ⟨k, head⟩ := Finset.min_of_mem (Finset.mem_filter.mpr ⟨(mem_keys t other).mpr known, not_lt.mp above⟩)
  obtain ⟨v, present⟩ := Option.ne_none_iff_exists'.mp ((mem_keys t k).mp (Finset.mem_filter.mp (Finset.mem_of_min head)).1)
  have first : (t.keys.filter (bound ≤ ·)).min = Option.some k := head
  rw [seek, first, Option.bind_some, present] at none
  cases none

theorem lists_scan (count : Nat) (t : Table K V) (enough : t.size ≤ count) : t.Lists (scan count t) := by
  induction count generalizing t with
  | zero =>
      rw [keys_none t (Finset.card_eq_zero.mp (Nat.le_zero.mp enough))]
      exact lists_empty
  | succ count ih =>
      unfold scan
      split
      · next none => rw [first_none t none]; exact lists_empty
      · next k v found =>
          have present := first_present t k v found
          have smaller := size_del t k v present
          have whole := lists_put (t.del k) _ k v (ih (t.del k) (by omega)) (get_del_self t k)
          rwa [put_del_self t k v present] at whole

theorem first_least (t : Table K V) (k : K) (v : V) (found : t.first = some (k, v)) (other : K)
    (known : t.get other ≠ none) : k ≤ other := by
  obtain ⟨key, head, reads⟩ := Option.bind_eq_some_iff.mp found
  obtain ⟨value, _, same⟩ := Option.map_eq_some_iff.mp reads
  obtain ⟨rfl, _⟩ := Prod.mk.inj same
  have least : t.keys.min = (key : WithTop K) := head
  exact Finset.min_le_of_eq ((mem_keys t other).mpr known) least

theorem scan_present (count : Nat) (t : Table K V) (entry : K × V) (member : entry ∈ scan count t) : t.get entry.1 = some entry.2 := by
  induction count generalizing t with
  | zero => cases member
  | succ count ih =>
      unfold scan at member
      split at member
      · cases member
      · next k v found =>
          obtain rfl | later := List.mem_cons.mp member
          · exact first_present t k v found
          · have present := ih (t.del k) later
            by_cases same : entry.1 = k
            · rw [same, get_del_self] at present
              cases present
            · rwa [get_del_ne t k entry.1 same] at present

theorem scan_ascending (count : Nat) (t : Table K V) : ((scan count t).map Prod.fst).Pairwise (· < ·) := by
  induction count generalizing t with
  | zero => exact List.Pairwise.nil
  | succ count ih =>
      unfold scan
      split
      · exact List.Pairwise.nil
      · next k v found =>
          refine List.pairwise_cons.mpr ⟨fun key member => ?_, ih (t.del k)⟩
          obtain ⟨entry, later, rfl⟩ := List.mem_map.mp member
          have present := scan_present count (t.del k) entry later
          have differs : entry.1 ≠ k := by
            intro same
            rw [same, get_del_self] at present
            cases present
          rw [get_del_ne t k entry.1 differs] at present
          exact lt_of_le_of_ne (first_least t k v found entry.1 (by simp [present])) differs.symm

theorem rows_ascending (t : Table K V) : (t.rows.map Prod.fst).Pairwise (· < ·) := scan_ascending t.size t

theorem lists_rows (t : Table K V) : t.Lists t.rows := lists_scan t.size t le_rfl

theorem key_listed (t : Table K V) (k : K) (v : V) (present : t.get k = some v) : k ∈ t.rows.map Prod.fst :=
  List.mem_map.mpr ⟨(k, v), (t.lists_rows.entries k v).mpr present, rfl⟩

theorem mem_rows (t : Table K V) (k : K) : k ∈ t.rows.map Prod.fst ↔ t.get k ≠ none := by
  constructor
  · intro listed
    obtain ⟨entry, member, rfl⟩ := List.mem_map.mp listed
    simp [(t.lists_rows.entries entry.1 entry.2).mp member]
  · intro known
    obtain ⟨v, present⟩ := Option.ne_none_iff_exists'.mp known
    exact key_listed t k v present

theorem rows_length (t : Table K V) : t.rows.length = t.size := by
  have listed : (t.rows.map Prod.fst).toFinset = t.keys := by
    ext k
    rw [List.mem_toFinset, mem_rows, mem_keys]
  rw [size, ← listed, List.toFinset_card_of_nodup t.lists_rows.once, List.length_map]

theorem settles_rows {α : Type} {step : α → K × V → Except Fault α} {fault : Fault → Prop} (t : Table K V)
    (holds : List K → α → Prop) (a : α) (start : holds [] a) (each : ∀ done k v a, t.get k = some v → k ∉ done → holds done a →
    Settles (step a (k, v)) fault (holds (done ++ [k]))) :
    Settles (t.rows.foldlM step a) fault (holds (t.rows.map Prod.fst)) := by
  refine settles_fold (fun done a => holds (done.map Prod.fst) a) t.rows a start ?_
  intro done entry rest a whole reached
  have present := (t.lists_rows.entries entry.1 entry.2).mp (whole ▸ List.mem_append_right done List.mem_cons_self)
  have once := t.lists_rows.once
  rw [whole, List.map_append, List.map_cons] at once
  have unseen : entry.1 ∉ done.map Prod.fst :=
    fun member => (List.nodup_append.mp once).2.2 entry.1 member entry.1 List.mem_cons_self rfl
  rw [List.map_append]
  exact each _ entry.1 entry.2 a present unseen reached

def rowsFrom (t : Table K V) (bound : K) : List (K × V) := t.rows.filter fun row => bound ≤ row.1

def between (t : Table K V) (low high : K) : List (K × V) := t.rows.filter fun row => low ≤ row.1 ∧ row.1 < high

theorem rows_from_split (t : Table K V) (low high : K) (ordered : low ≤ high) :
    t.rowsFrom low = t.between low high ++ t.rowsFrom high := ascending_split t.rows t.rows_ascending low high ordered

theorem mem_rows_from (t : Table K V) (bound : K) (row : K × V) :
    row ∈ t.rowsFrom bound ↔ t.get row.1 = some row.2 ∧ bound ≤ row.1 := by
  rw [rowsFrom, List.mem_filter, decide_eq_true_eq]
  exact and_congr_left fun _ => t.lists_rows.entries row.1 row.2

theorem rows_from_ascending (t : Table K V) (bound : K) : ((t.rowsFrom bound).map Prod.fst).Pairwise (· < ·) :=
  t.rows_ascending.sublist (List.filter_sublist.map Prod.fst)

theorem seek_rows_from (t : Table K V) (bound : K) : t.seek bound = (t.rowsFrom bound).head? := by
  cases rows : t.rowsFrom bound with
  | nil =>
      cases found : t.seek bound with
      | none => rfl
      | some row =>
          have here := t.seek_some bound row.1 row.2 found
          have member := (t.mem_rows_from bound row).mpr ⟨here.1, here.2.1⟩
          rw [rows] at member
          cases member
  | cons row rest =>
      have known := (t.mem_rows_from bound row).mp (rows ▸ List.mem_cons_self)
      cases found : t.seek bound with
      | none => exact absurd known.2 (not_le.mpr (t.seek_none bound found row.1 (by simp [known.1])))
      | some least =>
          have here := t.seek_some bound least.1 least.2 found
          have member := (t.mem_rows_from bound least).mpr ⟨here.1, here.2.1⟩
          rw [rows] at member
          rcases List.mem_cons.mp member with same | later
          · rw [same, List.head?_cons]
          · have ascending := t.rows_from_ascending bound
            rw [rows, List.map_cons] at ascending
            have above := (List.pairwise_cons.mp ascending).1 least.1 (List.mem_map_of_mem later)
            exact absurd above (not_lt.mpr (here.2.2 row.1 (by simp [known.1]) known.2))

theorem rows_from_next (t : Table K V) (bound next : K) (row : K × V) (rest : List (K × V)) (rows : t.rowsFrom bound = row :: rest)
    (after : ∀ key, next ≤ key ↔ row.1 < key) : t.rowsFrom next = rest := by
  have known := (t.mem_rows_from bound row).mp (rows ▸ List.mem_cons_self)
  have ascending := t.rows_from_ascending bound
  rw [rows, List.map_cons] at ascending
  have above : ∀ other ∈ rest, next ≤ other.1 := fun other member =>
    (after other.1).mpr ((List.pairwise_cons.mp ascending).1 other.1 (List.mem_map_of_mem member))
  have behind : t.rowsFrom next = (t.rowsFrom bound).filter fun other => next ≤ other.1 := by
    rw [rowsFrom, rowsFrom, List.filter_filter]
    refine List.filter_congr fun other _ => ?_
    rw [← Bool.decide_and, decide_eq_decide]
    exact ⟨fun later => ⟨later, known.2.trans ((after other.1).mp later).le⟩, And.left⟩
  have passed : ¬ next ≤ row.1 := fun later => lt_irrefl row.1 ((after row.1).mp later)
  rw [behind, rows, List.filter_cons_of_neg (by simpa using passed), List.filter_eq_self]
  exact fun other member => by simpa using above other member

end Rows

end Table

-- Leaving out the rows before the first that passes is leaving out all that do not pass only if none of them comes later.
theorem drop_while_passing {K V : Type} [LinearOrder K] (passes : K × V → Bool) (rows : List (K × V))
    (ascending : (rows.map Prod.fst).Pairwise (· < ·)) : (∀ row ∈ rows.dropWhile (!passes ·), passes row = true) ↔
      ∀ first ∈ rows, ∀ second ∈ rows, first.1 < second.1 → passes first = true → passes second = true := by
  induction rows with
  | nil => simp
  | cons row rows ih =>
      have later := List.pairwise_cons.mp ascending
      have above : ∀ other ∈ rows, row.1 < other.1 := fun other member => later.1 other.1 (List.mem_map_of_mem member)
      cases here : passes row with
      | true =>
          rw [List.dropWhile_cons_of_neg (by simp [here])]
          constructor
          · intro all _ _ second member _ _
            exact all second member
          · intro onward other member
            rcases List.mem_cons.mp member with rfl | member
            · exact here
            · exact onward row List.mem_cons_self other (List.mem_cons_of_mem row member) (above other member) here
      | false =>
          rw [List.dropWhile_cons_of_pos (by simp [here]), ih later.2]
          constructor
          · intro onward first member second member' less passing
            rcases List.mem_cons.mp member with rfl | inside
            · exact absurd passing (by simp [here])
            · rcases List.mem_cons.mp member' with rfl | inside'
              · exact absurd less (lt_asymm (above first inside))
              · exact onward first inside second inside' less passing
          · intro onward first member second member' less passing
            exact onward first (List.mem_cons_of_mem row member) second (List.mem_cons_of_mem row member') less passing

theorem filter_drop_while {α : Type} (passes : α → Bool) (rows : List α) :
    (rows.dropWhile (!passes ·)).filter passes = rows.filter passes := by
  induction rows with
  | nil => rfl
  | cons row rows ih =>
      cases here : passes row with
      | true => rw [List.dropWhile_cons_of_neg (by simp [here])]
      | false => rw [List.dropWhile_cons_of_pos (by simp [here]), ih, List.filter_cons_of_neg (by simp [here])]

section Range

variable {K V α : Type} (more : α → Bool) (body : α → K × V → α)

def foldWhile : List (K × V) → α → α
  | [], a => a
  | row :: rows, a => if more a then foldWhile rows (body a row) else a

theorem fold_while_always (rows : List (K × V)) (a : α) : foldWhile (fun _ => true) body rows a = rows.foldl body a := by
  induction rows generalizing a with
  | nil => rfl
  | cons row rows ih => exact ih (body a row)

variable [DecidableEq K]

-- `for (i = begin (low), n = begin (high); i != n && more; ++i)`: the rows left to `i`, and the key under `n` if it is on one.
-- The body asserts the size of what it reads, which fails behind the last row.
def forRange (stop : Option K) : List (K × V) → α → Except Fault α
  | [], a => if stop ≠ none ∧ more a then .error .abort else .ok a
  | row :: rows, a => if stop ≠ some row.1 ∧ more a then forRange stop rows (body a row) else .ok a

variable {more body}

theorem for_range_until (inside rest : List (K × V)) (a : α) (apart : ∀ row ∈ inside, (rest.head?.map Prod.fst) ≠ some row.1) :
    forRange more body (rest.head?.map Prod.fst) (inside ++ rest) a = .ok (foldWhile more body inside a) := by
  induction inside generalizing a with
  | nil => cases rest <;> simp [forRange, foldWhile]
  | cons row inside ih =>
      have here := apart row List.mem_cons_self
      have next := ih (body a row) fun other member => apart other (List.mem_cons_of_mem row member)
      by_cases goes : more a = true
      · simp [forRange, foldWhile, here, goes, next]
      · simp [forRange, foldWhile, goes]

theorem for_range_missed (stop : K) (rows : List (K × V)) (a : α) (endless : ∀ a, more a = true) (missed : ∀ row ∈ rows, row.1 ≠ stop) :
    forRange more body (some stop) rows a = .error .abort := by
  induction rows generalizing a with
  | nil => simp [forRange, endless]
  | cons row rows ih =>
      have here := (missed row List.mem_cons_self).symm
      have next := ih (body a row) fun other member => missed other (List.mem_cons_of_mem row member)
      simp [forRange, here, endless, next]

end Range

end Kit
