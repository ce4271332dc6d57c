import Raiblocks.Processor

set_option autoImplicit false

namespace Rai

open Kit

theorem kind_of_byte (kind : Kind) : Kind.ofByte kind.byte = some kind := by
  cases kind <;> decide

theorem deserialize_serialized (block : Block) (fits : block.Fits) : deserializeBlock (serializeBlock block) = some block := by
  have read := deserialize_written (0, 0) block [] fits
  rw [List.append_nil] at read
  simp [deserializeBlock, serializeBlock, kind_of_byte, read]

def Awaits (s : Store) (k : Hash) (b : Block) : Prop :=
  (k, b) ∈ s.uncheckedCache ∨ b.Fits ∧ serializeBlock b ∈ (s.unchecked.get k).getD []

structure Files (P : Hash → Block → Prop) (s : Store) : Prop where
  cached : ∀ k b, (k, b) ∈ s.uncheckedCache → P k b
  tabled : ∀ k values, s.unchecked.get k = some values → values ≠ [] ∧
    ∀ value ∈ values, ∃ b, value = serializeBlock b ∧ b.Fits ∧ P k b

def Store.waiting (s : Store) : Nat := s.uncheckedCache.length + s.unchecked.sum fun _ values => values.length

theorem files_none (P : Hash → Block → Prop) (s : Store) (none : s.unchecked = .empty) (empty : s.uncheckedCache = []) : Files P s := by
  refine ⟨fun k b member => ?_, fun k values found => ?_⟩
  · rw [empty] at member
    cases member
  · rw [none, Table.get_empty] at found
    cases found

theorem files_mono (P Q : Hash → Block → Prop) (s : Store) (files : Files P s) (weaker : ∀ k b, P k b → Q k b) : Files Q s := by
  refine ⟨fun k b member => weaker k b (files.cached k b member), fun k values found => ?_⟩
  obtain ⟨nonempty, all⟩ := files.tabled k values found
  refine ⟨nonempty, fun value member => ?_⟩
  obtain ⟨b, written, fits, holds⟩ := all value member
  exact ⟨b, written, fits, weaker k b holds⟩

section Untouched

variable (s s' : Store) (table : s'.unchecked = s.unchecked) (cache : s'.uncheckedCache = s.uncheckedCache)
include table cache

theorem files_congr (P : Hash → Block → Prop) (files : Files P s) : Files P s' := by
  refine ⟨?_, ?_⟩
  · rw [cache]
    exact files.cached
  · rw [table]
    exact files.tabled

theorem awaits_congr (k : Hash) (b : Block) : Awaits s' k b ↔ Awaits s k b := by
  rw [Awaits, Awaits, table, cache]

theorem waiting_congr : s'.waiting = s.waiting := by
  rw [Store.waiting, Store.waiting, table, cache]

end Untouched

section Put

variable (P : Hash → Block → Prop) (s : Store) (k : Hash) (b : Block)

theorem files_put (files : Files P s) (holds : P k b) : Files P (uncheckedPut s k b) := by
  refine ⟨fun k' b' member => ?_, files.tabled⟩
  obtain old | new := List.mem_append.mp member
  · exact files.cached k' b' old
  · cases List.mem_singleton.mp new
    exact holds

theorem awaits_put (k' : Hash) (b' : Block) : Awaits (uncheckedPut s k b) k' b' ↔ Awaits s k' b' ∨ k' = k ∧ b' = b := by
  simp only [Awaits, uncheckedPut, List.mem_append, List.mem_singleton, Prod.mk.injEq]
  tauto

theorem waiting_put : (uncheckedPut s k b).waiting = s.waiting + 1 := by
  simp only [Store.waiting, uncheckedPut, List.length_append, List.length_singleton]
  omega

end Put

theorem files_awaits (P : Hash → Block → Prop) (s : Store) (files : Files P s) (k : Hash) (b : Block)
    (awaits : Awaits s k b) : P k b := by
  obtain cached | ⟨fits, tabled⟩ := awaits
  · exact files.cached k b cached
  · cases found : s.unchecked.get k with
    | none =>
        rw [found] at tabled
        cases tabled
    | some values =>
        rw [found] at tabled
        obtain ⟨b', same, fits', holds⟩ := (files.tabled k values found).2 _ tabled
        have back := deserialize_serialized b' fits'
        rw [← same, deserialize_serialized b fits] at back
        cases back
        exact holds

section Duplicates

variable (t : Table Hash (List Bytes)) (k : Hash) (values : List Bytes)

theorem duplicates_set (x : Hash) : ((setDuplicates t k values).get x).getD [] = if x = k then values else (t.get x).getD [] := by
  unfold setDuplicates
  split
  · next none =>
      rw [Table.get_del, none]
      split <;> rfl
  · rw [Table.get_put]
    split <;> rfl

theorem duplicates_some (x : Hash) (found : List Bytes) (proper : ∀ y, t.get y ≠ some [])
    (present : (setDuplicates t k values).get x = some found) : found ≠ [] := by
  unfold setDuplicates at present
  rintro rfl
  split at present
  · exact proper x (Table.del_some t k x [] present).2
  · next nonempty =>
      obtain ⟨_, none⟩ | old := Table.put_some t k x values [] present
      · exact nonempty none.symm
      · exact proper x old

theorem duplicates_ext (u : Table Hash (List Bytes)) (proper : ∀ y, t.get y ≠ some []) (proper' : ∀ y, u.get y ≠ some [])
    (same : ∀ y, (t.get y).getD [] = (u.get y).getD []) : t = u := by
  apply Table.ext_get
  intro y
  have here := same y
  cases left : t.get y with
  | none =>
      cases right : u.get y with
      | none => rfl
      | some other =>
          rw [left, right] at here
          have empty : other = [] := here.symm
          exact absurd (empty ▸ right) (proper' y)
  | some one =>
      cases right : u.get y with
      | none =>
          rw [left, right] at here
          have empty : one = [] := here
          exact absurd (empty ▸ left) (proper y)
      | some other =>
          rw [left, right] at here
          exact congrArg some here

end Duplicates

theorem files_proper (P : Hash → Block → Prop) (s : Store) (files : Files P s) (k : Hash) : s.unchecked.get k ≠ some [] :=
  fun empty => (files.tabled k [] empty).1 rfl

def uncheckedTake (s : Store) (k : Hash) : Store :=
  { s with uncheckedCache := s.uncheckedCache.filter fun entry => entry.1 ≠ k, unchecked := s.unchecked.del k }

theorem del_all_spec (s : Store) (k : Hash) (blocks : List Block) (proper : ∀ y, s.unchecked.get y ≠ some []) :
    ∃ table, blocks.foldl (fun s block => uncheckedDel s k block) s =
        { s with uncheckedCache := s.uncheckedCache.filter fun entry => ¬ (entry.1 = k ∧ entry.2 ∈ blocks), unchecked := table } ∧
      (∀ y, table.get y ≠ some []) ∧ ∀ y, (table.get y).getD [] =
        if y = k then ((s.unchecked.get k).getD []).filter (fun value => value ∉ blocks.map serializeBlock)
          else (s.unchecked.get y).getD [] := by
  induction blocks generalizing s with
  | nil =>
      refine ⟨s.unchecked, ?_, proper, ?_⟩
      · simp
      · intro y
        split
        · next here => simp [here]
        · rfl
  | cons block rest ih =>
      have step :=
        fun y => duplicates_set s.unchecked k (((s.unchecked.get k).getD []).filter fun value => value ≠ serializeBlock block) y
      have proper' : ∀ y, (uncheckedDel s k block).unchecked.get y ≠ some [] := fun y empty =>
        duplicates_some s.unchecked k _ y [] proper empty rfl
      obtain ⟨table, ran, kept, values⟩ := ih (uncheckedDel s k block) proper'
      refine ⟨table, ?_, kept, ?_⟩
      · rw [List.foldl_cons, ran]
        simp only [uncheckedDel, List.filter_filter]
        congr 1
        apply List.filter_congr
        rintro ⟨x, b⟩ _
        rw [Bool.eq_iff_iff]
        simp only [Bool.and_eq_true, decide_eq_true_eq, ne_eq, Prod.mk.injEq, List.mem_cons]
        tauto
      · intro y
        rw [values y]
        simp only [uncheckedDel, step]
        split
        · rw [if_pos trivial, List.filter_filter]
          apply List.filter_congr
          intro value _
          rw [Bool.eq_iff_iff]
          simp only [Bool.and_eq_true, decide_eq_true_eq, ne_eq, List.map_cons, List.mem_cons]
          tauto
        · rfl

theorem read_values (P : Block → Prop) (values : List Bytes) (all : ∀ value ∈ values, ∃ b, value = serializeBlock b ∧ b.Fits ∧ P b) :
    ∃ blocks, (values.mapM fun value => require (deserializeBlock value)) = .ok blocks ∧ blocks.map serializeBlock = values ∧
      ∀ b ∈ blocks, b.Fits ∧ P b := by
  induction values with
  | nil => exact ⟨[], rfl, rfl, by simp⟩
  | cons value rest ih =>
      obtain ⟨b, rfl, fits, holds⟩ := all value List.mem_cons_self
      obtain ⟨blocks, ran, written, good⟩ := ih fun value member => all value (List.mem_cons_of_mem _ member)
      refine ⟨b :: blocks, ?_, by rw [List.map_cons, written], ?_⟩
      · rw [List.mapM_cons, deserialize_serialized b fits, require_some, bind_ok, ran, bind_ok]
        rfl
      · intro b' member
        obtain rfl | member := List.mem_cons.mp member
        · exact ⟨fits, holds⟩
        · exact good b' member

theorem files_values (P : Hash → Block → Prop) (s : Store) (k : Hash) (files : Files P s) (value : Bytes)
    (member : value ∈ (s.unchecked.get k).getD []) : ∃ b, value = serializeBlock b ∧ b.Fits ∧ P k b := by
  cases found : s.unchecked.get k with
  | none =>
      rw [found] at member
      cases member
  | some values =>
      rw [found] at member
      exact (files.tabled k values found).2 value member

theorem mem_written (blocks : List Block) (fit : ∀ b ∈ blocks, b.Fits) (b : Block) :
    b ∈ blocks ↔ b.Fits ∧ serializeBlock b ∈ blocks.map serializeBlock := by
  constructor
  · exact fun member => ⟨fit b member, List.mem_map_of_mem member⟩
  · rintro ⟨fits, member⟩
    obtain ⟨b', found, same⟩ := List.mem_map.mp member
    have back := deserialize_serialized b' (fit b' found)
    rw [same, deserialize_serialized b fits] at back
    exact Option.some.inj back ▸ found

theorem del_all_takes (s : Store) (k : Hash) (blocks : List Block) (proper : ∀ y, s.unchecked.get y ≠ some [])
    (cached : ∀ b, (k, b) ∈ s.uncheckedCache → b ∈ blocks)
    (stored : ∀ value ∈ (s.unchecked.get k).getD [], value ∈ blocks.map serializeBlock) :
    blocks.foldl (fun s block => uncheckedDel s k block) s = uncheckedTake s k := by
  obtain ⟨table, deleted, kept, values⟩ := del_all_spec s k blocks proper
  have same : table = s.unchecked.del k := by
    apply duplicates_ext _ _ kept
    · intro y empty
      exact proper y (Table.del_some s.unchecked k y [] empty).2
    · intro y
      rw [values y, Table.get_del]
      split
      · simp only [Option.getD_none, List.filter_eq_nil_iff, decide_eq_true_eq, not_not]
        exact stored
      · rfl
  have rest : (s.uncheckedCache.filter fun entry => ¬ (entry.1 = k ∧ entry.2 ∈ blocks)) =
      s.uncheckedCache.filter fun entry => entry.1 ≠ k := by
    apply List.filter_congr
    rintro ⟨x, b⟩ member
    rw [Bool.eq_iff_iff]
    simp only [decide_eq_true_eq, not_and, ne_eq]
    constructor
    · intro outside here
      subst here
      exact outside rfl (cached b member)
    · exact fun other here => absurd here other
  rw [deleted, uncheckedTake, same, rest]

theorem waiting_take (s : Store) (k : Hash) :
    (uncheckedTake s k).waiting + ((s.uncheckedCache.filter fun entry => entry.1 = k).length + ((s.unchecked.get k).getD []).length) =
    s.waiting := by
  have cache := List.length_eq_length_filter_add (l := s.uncheckedCache) fun entry => decide (entry.1 = k)
  have table := Table.sum_del (fun _ values => values.length) s.unchecked k
  have size : ((s.unchecked.get k).map fun values => values.length).getD 0 = ((s.unchecked.get k).getD []).length := by
    cases s.unchecked.get k <;> rfl
  have inverse : (s.uncheckedCache.filter fun entry => !decide (entry.1 = k)) = s.uncheckedCache.filter fun entry => entry.1 ≠ k := by
    simp
  simp only [Store.waiting, uncheckedTake]
  rw [inverse] at cache
  omega

theorem take_spec (P : Hash → Block → Prop) (order : CacheOrder) (s : Store) (k : Hash) (files : Files P s) :
    ∃ blocks, uncheckedGet order s k = .ok blocks ∧ blocks.foldl (fun s block => uncheckedDel s k block) s = uncheckedTake s k ∧
      (∀ b, b ∈ blocks ↔ Awaits s k b) ∧ (∀ b ∈ blocks, P k b) ∧ (uncheckedTake s k).waiting + blocks.length = s.waiting := by
  obtain ⟨stored, ran, written, good⟩ := read_values (P k) _ (files_values P s k files)
  obtain ⟨cached, listed⟩ : { listed // order k ((s.uncheckedCache.filter fun entry => entry.1 = k).map Prod.snd) = listed } := ⟨_, rfl⟩
  have member_cached : ∀ b, b ∈ cached.val ↔ (k, b) ∈ s.uncheckedCache := by
    intro b
    rw [cached.property.mem_iff]
    simp
  have member_stored := mem_written stored fun b member => (good b member).1
  refine ⟨cached.val ++ stored, ?_, ?_, ?_, ?_, ?_⟩
  · rw [uncheckedGet, ran, bind_ok, listed]
  · apply del_all_takes s k _ (files_proper P s files)
    · exact fun b member => List.mem_append_left _ ((member_cached b).mpr member)
    · intro value member
      rw [List.map_append, written]
      exact List.mem_append_right _ member
  · intro b
    rw [List.mem_append, member_cached, member_stored, written, Awaits]
  · intro b member
    obtain member | member := List.mem_append.mp member
    · exact files.cached k b ((member_cached b).mp member)
    · exact (good b member).2
  · have size : stored.length = ((s.unchecked.get k).getD []).length := by rw [← written, List.length_map]
    rw [List.length_append, cached.property.length_eq, List.length_map, size]
    exact waiting_take s k

theorem files_take (P : Hash → Block → Prop) (s : Store) (k : Hash) (files : Files P s) :
    Files (fun x b => P x b ∧ x ≠ k) (uncheckedTake s k) := by
  refine ⟨fun x b member => ?_, fun x values found => ?_⟩
  · obtain ⟨member, other⟩ := List.mem_filter.mp member
    exact ⟨files.cached x b member, of_decide_eq_true other⟩
  · obtain ⟨other, kept⟩ := Table.del_some s.unchecked k x values found
    obtain ⟨nonempty, all⟩ := files.tabled x values kept
    refine ⟨nonempty, fun value member => ?_⟩
    obtain ⟨b, written, fits, holds⟩ := all value member
    exact ⟨b, written, fits, holds, other⟩

theorem awaits_take (s : Store) (k x : Hash) (b : Block) (other : x ≠ k) : Awaits (uncheckedTake s k) x b ↔ Awaits s x b := by
  simp [Awaits, uncheckedTake, Table.get_del_ne s.unchecked k x other, other]

section Flush

theorem short_fits (block : Block) (short : (serializeBlock block).length ≤ duplicateMax) : block.Fits := by
  obtain ⟨hashables, signature, work⟩ := block
  cases hashables with
  | sendBlockV2 previous destination action =>
      simp only [serializeBlock, Block.serialize, Hashables.serialize, writeBytes, List.length_cons, List.length_append,
        word_bytes_length, word_bytes_le_length, duplicateMax] at short
      simp only [Block.Fits, Hashables.Fits]
      omega
  | _ => trivial

theorem legacy_short (block : Block) (legacy : block.kind ≠ .sendBlockV2) : (serializeBlock block).length ≤ duplicateMax := by
  obtain ⟨hashables, signature, work⟩ := block
  cases hashables with
  | sendBlockV2 previous destination action => exact absurd rfl legacy
  | _ => simp [serializeBlock, Block.serialize, Hashables.serialize, duplicateMax]

theorem insert_duplicate_mem (value other : Bytes) (values : List Bytes) :
    other ∈ insertDuplicate value values ↔ other = value ∨ other ∈ values := by
  induction values with
  | nil => simp [insertDuplicate]
  | cons head rest ih =>
      unfold insertDuplicate
      split
      · next same => simp [same]
      · split
        · simp
        · rw [List.mem_cons, ih, List.mem_cons]
          tauto

theorem insert_duplicate_length (value : Bytes) (values : List Bytes) : (insertDuplicate value values).length ≤ values.length + 1 := by
  induction values with
  | nil => simp [insertDuplicate]
  | cons head rest ih =>
      unfold insertDuplicate
      split
      · simp
      · split
        · simp
        · simpa using ih

theorem duplicates_sum (t : Table Hash (List Bytes)) (k : Hash) (values : List Bytes) :
    (setDuplicates t k values).sum (fun _ values => values.length) + ((t.get k).getD []).length =
      t.sum (fun _ values => values.length) + values.length := by
  have length : ∀ found : Option (List Bytes), (found.map fun values => values.length).getD 0 = (found.getD []).length := by
    intro found
    cases found <;> rfl
  have rest : (setDuplicates t k values).del k = t.del k := by
    unfold setDuplicates
    apply Table.ext_get
    intro y
    rw [Table.get_del, Table.get_del]
    split
    · rfl
    · next other =>
        split
        · exact Table.get_del_ne t k y other
        · exact Table.get_put_ne t k y values other
  have before := Table.sum_del (fun _ values => values.length) t k
  have after := Table.sum_del (fun _ values => values.length) (setDuplicates t k values) k
  rw [length] at before
  rw [length, duplicates_set, if_pos rfl, rest] at after
  omega

theorem flush_entries (entries : List (Hash × Block)) (t : Table Hash (List Bytes)) (proper : ∀ y, t.get y ≠ some []) :
    Settles (entries.foldlM flushEntry t) (fun _ => ∃ entry ∈ entries, duplicateMax < (serializeBlock entry.2).length) fun table =>
      (∀ y, table.get y ≠ some []) ∧ (∀ entry ∈ entries, (serializeBlock entry.2).length ≤ duplicateMax) ∧
      (∀ y value, value ∈ (table.get y).getD [] ↔ value ∈ (t.get y).getD [] ∨ ∃ b, (y, b) ∈ entries ∧ value = serializeBlock b) ∧
      table.sum (fun _ values => values.length) ≤ t.sum (fun _ values => values.length) + entries.length := by
  induction entries generalizing t with
  | nil =>
      rw [List.foldlM_nil]
      exact ⟨proper, by simp, by simp, Nat.le_refl _⟩
  | cons entry rest ih =>
      obtain ⟨k, b⟩ := entry
      rw [List.foldlM_cons]
      by_cases short : (serializeBlock b).length ≤ duplicateMax
      · have step : flushEntry t (k, b) = .ok (setDuplicates t k (insertDuplicate (serializeBlock b) ((t.get k).getD []))) := by
          rw [flushEntry, ensure_true _ short, bind_ok]
        refine settles_step step ?_
        refine settles_mono (ih _ fun y empty => duplicates_some t k _ y [] proper empty rfl) ?_ ?_
        · rintro _ ⟨entry, member, long⟩
          exact ⟨entry, List.mem_cons_of_mem _ member, long⟩
        · rintro table ⟨kept, all, members, size⟩
          refine ⟨kept, ?_, ?_, ?_⟩
          · intro entry member
            obtain rfl | member := List.mem_cons.mp member
            · exact short
            · exact all entry member
          · intro y value
            rw [members, duplicates_set]
            by_cases here : y = k
            · subst here
              rw [if_pos rfl, insert_duplicate_mem]
              simp only [List.mem_cons, Prod.mk.injEq, true_and]
              grind
            · rw [if_neg here]
              simp only [List.mem_cons, Prod.mk.injEq, here, false_and, false_or]
          · have grown := duplicates_sum t k (insertDuplicate (serializeBlock b) ((t.get k).getD []))
            have one := insert_duplicate_length (serializeBlock b) ((t.get k).getD [])
            rw [List.length_cons]
            omega
      · have stops : flushEntry t (k, b) = .error .abort := by
          rw [flushEntry, ensure, if_neg short, bind_error]
        exact settles_stop stops ⟨(k, b), List.mem_cons_self, Nat.lt_of_not_le short⟩

structure Flushed (P : Hash → Block → Prop) (s s' : Store) : Prop where
  same : ∃ table, s' = { s with unchecked := table, uncheckedCache := [] }
  files : Files P s'
  awaits : ∀ k b, Awaits s' k b ↔ Awaits s k b
  waiting : s'.waiting ≤ s.waiting

theorem flush_settles (P : Hash → Block → Prop) (s : Store) (files : Files P s) :
    Settles (storeFlush s) (fun _ => ∃ k b, P k b ∧ duplicateMax < (serializeBlock b).length) (Flushed P s) := by
  refine settles_bind (settles_mono (flush_entries s.uncheckedCache s.unchecked (files_proper P s files)) ?_ fun _ => id) ?_
  · rintro _ ⟨⟨k, b⟩, member, long⟩
    exact ⟨k, b, files.cached k b member, long⟩
  · rintro table ⟨proper, short, members, size⟩
    rw [settles_ok]
    refine ⟨⟨table, rfl⟩, ⟨fun _ _ member => absurd member (by simp), fun k values found =>
      ⟨fun empty => proper k (empty ▸ found), ?_⟩⟩, ?_, ?_⟩
    · intro value member
      have either := (members k value).mp (by rw [found]; exact member)
      obtain old | ⟨b, new, rfl⟩ := either
      · cases before : s.unchecked.get k with
        | none =>
            rw [before] at old
            cases old
        | some values =>
            rw [before] at old
            exact (files.tabled k values before).2 value old
      · exact ⟨b, rfl, short_fits b (short _ new), files.cached k b new⟩
    · intro k b
      simp only [Awaits, List.not_mem_nil, false_or, members]
      constructor
      · rintro ⟨fits, old | ⟨b', new, same⟩⟩
        · exact Or.inr ⟨fits, old⟩
        · have back := deserialize_serialized b' (short_fits b' (short _ new))
          rw [← same, deserialize_serialized b fits] at back
          cases back
          exact Or.inl new
      · rintro (new | ⟨fits, old⟩)
        · exact ⟨short_fits b (short _ new), Or.inr ⟨b, new, rfl⟩⟩
        · exact ⟨fits, Or.inl old⟩
    · simp only [Store.waiting, List.length_nil]
      omega

end Flush

end Rai
