import Raiblocks.Lattice
import Raiblocks.Store

set_option autoImplicit false

namespace Rai

open Kit

-- The five block tables hold the blocks of a lattice, each in the table of its
-- kind and followed by the successor that `next` gives it.
def rawValue (L : Lattice) (next : Hash → Hash) (kind : Kind) (x : Hash) : Option Bytes :=
  match L.get x with
  | some n => if n.block.kind = kind then some (n.block.serialize ++ wordBytes 32 (next x)) else none
  | none => none

def BlocksHold (L : Lattice) (next : Hash → Hash) (blocks : Kind → Table Hash Bytes) : Prop :=
  ∀ kind x, (blocks kind).get x = rawValue L next kind x

section Values

variable (L : Lattice) (next : Hash → Hash) (kind : Kind) (x : Hash)

theorem raw_value_none (absent : L.get x = none) : rawValue L next kind x = none := by
  rw [rawValue, absent]

theorem raw_value_own (n : Note) (stored : L.get x = some n) :
    rawValue L next n.block.kind x = some (n.block.serialize ++ wordBytes 32 (next x)) := by
  simp [rawValue, stored]

theorem raw_value_other (n : Note) (stored : L.get x = some n) (other : n.block.kind ≠ kind) : rawValue L next kind x = none := by
  simp [rawValue, stored, other]

end Values

theorem block_get_fits (s : Store) (h : Hash) (block : Block) (read : blockGet s h = .ok (some block)) : block.Fits := by
  unfold blockGet at read
  split at read
  · cases read
  · next kind value _ =>
      cases parsed : Block.deserialize (0, 0) kind value with
      | none =>
          rw [parsed] at read
          cases read
      | some found =>
          rw [parsed] at read
          cases read
          exact ((block_inverts (0, 0) kind).exact _ _ _ parsed).1.2

section Reading

variable {L : Lattice} {next : Hash → Hash} {s : Store} (holds : BlocksHold L next s.blocks)
include holds

theorem get_raw_stored (x : Hash) (n : Note) (stored : L.get x = some n) :
    blockGetRaw s x = some (n.block.kind, n.block.serialize ++ wordBytes 32 (next x)) := by
  have own := (holds n.block.kind x).trans (raw_value_own L next x n stored)
  have others : ∀ kind, n.block.kind ≠ kind → (s.blocks kind).get x = none := fun kind other =>
    (holds kind x).trans (raw_value_other L next kind x n stored other)
  cases which : n.block.kind <;> simp [blockGetRaw, lookupOrder, which ▸ own, others, which]

theorem get_raw_absent (x : Hash) (absent : L.get x = none) : blockGetRaw s x = none := by
  have nowhere : ∀ kind, (s.blocks kind).get x = none := fun kind =>
    (holds kind x).trans (raw_value_none L next kind x absent)
  simp [blockGetRaw, lookupOrder, nowhere]

theorem exists_stored {x : Hash} {n : Note} (stored : L.get x = some n) : blockExists s x = true := by
  have own := (holds n.block.kind x).trans (raw_value_own L next x n stored)
  have listed : n.block.kind ∈ lookupOrder := by cases n.block.kind <;> decide
  exact List.any_eq_true.mpr ⟨n.block.kind, listed, by simp [own]⟩

theorem exists_absent (x : Hash) (absent : L.get x = none) : blockExists s x = false := by
  have nowhere : ∀ kind, (s.blocks kind).get x = none := fun kind =>
    (holds kind x).trans (raw_value_none L next kind x absent)
  simp [blockExists, lookupOrder, nowhere]

theorem exists_iff (x : Hash) : blockExists s x = true ↔ L.get x ≠ none := by
  cases found : L.get x with
  | none => simp [exists_absent holds x found]
  | some n => simp [exists_stored holds found]

theorem get_reads_as (x : Hash) (n : Note) (stored : L.get x = some n) :
    ∃ found, blockGet s x = .ok (some found) ∧ n.block.ReadsAs found := by
  obtain ⟨found, same, reads⟩ := deserialize_reads_as (0, 0) n.block
  obtain ⟨_, read⟩ := reads (wordBytes 32 (next x))
  refine ⟨found, ?_, same⟩
  simp [blockGet, get_raw_stored holds x n stored, read]

theorem get_fits (x : Hash) (n : Note) (stored : L.get x = some n) (fits : n.block.Fits) : blockGet s x = .ok (some n.block) := by
  simp [blockGet, get_raw_stored holds x n stored, deserialize_written (0, 0) n.block _ fits]

theorem get_contract (x : Hash) (n : Note) (previous : Hash) (destination : Account) (action : Bytes) (stored : L.get x = some n)
    (fields : n.block.hashables = .sendBlockV2 previous destination action) :
    blockGet s x = .ok (some (cutAction previous destination action n.block.signature n.block.work)) := by
  have whole : n.block = ⟨.sendBlockV2 previous destination action, n.block.signature, n.block.work⟩ := by rw [← fields]
  have kind : n.block.kind = .sendBlockV2 := by simp [Block.kind, fields]
  obtain ⟨left, read⟩ := deserialize_long_action (0, 0) previous destination action n.block.signature n.block.work
    (wordBytes 32 (next x))
  rw [← whole] at read
  simp [blockGet, get_raw_stored holds x n stored, kind, read]

theorem get_legacy (x : Hash) (n : Note) (stored : L.get x = some n) (legacy : n.block.kind ≠ .sendBlockV2) :
    blockGet s x = .ok (some n.block) :=
  get_fits holds x n stored (legacy_fits n.block legacy)

theorem get_absent (x : Hash) (absent : L.get x = none) : blockGet s x = .ok none := by
  rw [blockGet, get_raw_absent holds x absent]

theorem successor_stored (x : Hash) (n : Note) (stored : L.get x = some n) : blockSuccessor s x = .ok (next x) := by
  simp [blockSuccessor, get_raw_stored holds x n stored, bytes_word_word_bytes, ensure]

theorem successor_absent (x : Hash) (absent : L.get x = none) : blockSuccessor s x = .ok 0 := by
  rw [blockSuccessor, get_raw_absent holds x absent]

end Reading

theorem get_alike {L M : Lattice} {next next' : Hash → Hash} {s t : Store} (left : BlocksHold L next s.blocks)
    (right : BlocksHold M next' t.blocks) (x : Hash) (n : Note) (stored : L.get x = some n) (stored' : M.get x = some n) :
    blockGet s x = blockGet t x := by
  obtain ⟨found, _, reads⟩ := deserialize_reads_as (0, 0) n.block
  obtain ⟨_, read⟩ := reads (wordBytes 32 (next x))
  obtain ⟨_, read'⟩ := reads (wordBytes 32 (next' x))
  simp [blockGet, get_raw_stored left x n stored, get_raw_stored right x n stored', read, read']

theorem holds_congr (L : Lattice) (next next' : Hash → Hash) (blocks : Kind → Table Hash Bytes)
    (holds : BlocksHold L next blocks) (same : ∀ x n, L.get x = some n → next x = next' x) : BlocksHold L next' blocks := by
  intro kind x
  rw [holds kind x, rawValue, rawValue]
  cases found : L.get x with
  | none => rfl
  | some n => simp only [same x n found]

theorem put_raw_holds (L : Lattice) (next : Hash → Hash) (s : Store) (h successor : Hash) (n : Note)
    (holds : BlocksHold L next s.blocks) (fits : ∀ m, L.get h = some m → m.block.kind = n.block.kind) :
    BlocksHold (L.put h n) (Function.update next h successor)
      (blockPutRaw s n.block.kind h (n.block.serialize ++ wordBytes 32 successor)).blocks := by
  intro kind x
  by_cases own : kind = n.block.kind
  · subst own
    simp only [blockPutRaw, Function.update_self, Table.get_put, rawValue]
    by_cases here : x = h
    · simp [here]
    · simp only [if_neg here, Function.update_of_ne here]
      exact holds n.block.kind x
  · simp only [blockPutRaw, Function.update_of_ne own]
    by_cases here : x = h
    · subst here
      rw [raw_value_other _ _ kind x n (Table.get_put_self L x n) (Ne.symm own), holds kind x]
      cases found : L.get x with
      | none => exact raw_value_none L next kind x found
      | some m => exact raw_value_other L next kind x m found (fits m found ▸ Ne.symm own)
    · rw [holds kind x, rawValue, rawValue, Table.get_put_ne L h x n here, Function.update_of_ne here]

theorem fill_value_holds (env : Env) (L : Lattice) (next : Hash → Hash) (s : Store) (block : Block) (before : Note)
    (holds : BlocksHold L next s.blocks) (stored : L.get block.previous = some before) :
    ∃ blocks, fillValue env s block = .ok { s with blocks := blocks } ∧
      BlocksHold L (Function.update next block.previous (block.hash env)) blocks := by
  have written := put_raw_holds L next s block.previous (block.hash env) before holds fun m found => by
    rw [stored] at found
    cases found
    rfl
  rw [Table.put_same L _ before stored] at written
  refine ⟨_, ?_, written⟩
  simp [fillValue, get_raw_stored holds _ before stored, blockPutRaw]

theorem block_put_holds (env : Env) (L : Lattice) (next : Hash → Hash) (s : Store) (h successor : Hash) (n : Note)
    (holds : BlocksHold L next s.blocks) (fits : ∀ m, L.get h = some m → m.block.kind = n.block.kind)
    (hashed : n.block.hash env = h) (follows : successor = 0 ∨ L.get successor ≠ none) (proper : n.block.previous ≠ h)
    (before : n.block.kind ≠ .openBlock → L.get n.block.previous ≠ none) :
    ∃ blocks, blockPut env s h n.block successor = .ok { s with blocks := blocks } ∧
      BlocksHold (L.put h n) (fun x => if x = h then successor else
        if x = n.block.previous ∧ n.block.kind ≠ .openBlock then h else next x) blocks := by
  have linked : successor = 0 ∨ blockExists s successor = true := follows.imp_right (exists_iff holds successor).mpr
  have written := put_raw_holds L next s h successor n holds fits
  by_cases opening : n.block.kind = .openBlock
  · refine ⟨_, ?_, holds_congr _ _ _ _ written ?_⟩
    · have first := open_previous n.block opening
      rw [blockPut, ensure_true _ linked, bind_ok]
      simp only [setPredecessor, opening, bind_ok, first, if_true]
      rfl
    · intro x m _
      by_cases here : x = h <;> simp [here, opening]
  · obtain ⟨older, stored⟩ := Option.ne_none_iff_exists'.mp (before opening)
    have kept : (L.put h n).get n.block.previous = some older := by
      rw [Table.get_put_ne L h _ n proper]
      exact stored
    obtain ⟨blocks, filled, linkedHolds⟩ := fill_value_holds env _ _ _ n.block older written kept
    refine ⟨blocks, ?_, holds_congr _ _ _ _ linkedHolds ?_⟩
    · have set : setPredecessor env (blockPutRaw s n.block.kind h (n.block.serialize ++ wordBytes 32 successor)) n.block =
          .ok { s with blocks := blocks } := by
        unfold setPredecessor
        split
        · next same => exact absurd same opening
        · exact filled
      have back : blockSuccessor { s with blocks := blocks } n.block.previous = .ok h := by
        rw [successor_stored (s := { s with blocks := blocks }) linkedHolds _ older kept, Function.update_self, hashed]
      rw [blockPut, ensure_true _ linked, bind_ok, set, bind_ok, back]
      simp [ensure]
    · intro x m _
      by_cases here : x = h
      · simp [here, Ne.symm proper]
      · by_cases covered : x = n.block.previous
        · simp [covered, proper, opening, hashed]
        · simp [here, covered]

theorem block_del_holds (L : Lattice) (next : Hash → Hash) (s : Store) (h : Hash) (n : Note)
    (holds : BlocksHold L next s.blocks) (stored : L.get h = some n) :
    ∃ blocks, blockDel s h = .ok { s with blocks := blocks } ∧ BlocksHold (L.del h) next blocks := by
  have own := (holds n.block.kind h).trans (raw_value_own L next h n stored)
  have others : ∀ kind, n.block.kind ≠ kind → (s.blocks kind).get h = none := fun kind other =>
    (holds kind h).trans (raw_value_other L next kind h n stored other)
  have first : lookupOrder.find? (fun kind => ((s.blocks kind).get h).isSome) = some n.block.kind := by
    cases which : n.block.kind <;> simp [lookupOrder, which ▸ own, others, which]
  refine ⟨Function.update s.blocks n.block.kind ((s.blocks n.block.kind).del h), by simp [blockDel, first], ?_⟩
  intro kind x
  by_cases here : x = h
  · subst here
    rw [raw_value_none _ next kind x (Table.get_del_self L x)]
    by_cases same : kind = n.block.kind
    · rw [same, Function.update_self, Table.get_del_self]
    · rw [Function.update_of_ne same, others kind (Ne.symm same)]
  · rw [rawValue, Table.get_del_ne L h x here]
    by_cases same : kind = n.block.kind
    · rw [same, Function.update_self, Table.get_del_ne _ h x here, holds, rawValue]
    · rw [Function.update_of_ne same, holds, rawValue]

section Raw

variable (s : Store) (kind : Kind) (h x : Hash) (value : Bytes)

theorem exists_raw : blockExists s x = true ↔ ∃ row, blockGetRaw s x = some row := by
  rw [← Option.isSome_iff_exists]
  simp [blockExists, blockGetRaw, List.findSome?_isSome_iff]

theorem put_raw_exists : blockExists (blockPutRaw s kind h value) x = true ↔ x = h ∨ blockExists s x = true := by
  by_cases here : x = h
  · subst here
    cases kind <;> simp [blockExists, lookupOrder, blockPutRaw]
  · cases kind <;> simp [blockExists, lookupOrder, blockPutRaw, Function.update, Table.get_put_ne, here]

theorem put_raw_get (old : Bytes) (found : blockGetRaw s x = some (kind, old)) :
    blockGetRaw (blockPutRaw s kind x value) x = some (kind, value) := by
  unfold blockGetRaw at found ⊢
  generalize lookupOrder = order at found ⊢
  induction order with
  | nil => cases found
  | cons first rest ih =>
      by_cases own : first = kind
      · subst own
        simp [blockPutRaw]
      · have kept : ((blockPutRaw s kind x value).blocks first).get x = (s.blocks first).get x := by
          simp [blockPutRaw, own]
        rw [List.findSome?_cons, kept]
        rw [List.findSome?_cons] at found
        cases row : (s.blocks first).get x with
        | none =>
            rw [row] at found
            exact ih found
        | some other =>
            rw [row] at found
            cases found
            exact absurd rfl own

theorem block_put_over (env : Env) (block : Block) (successor : Hash) (next : successor = 0 ∨ blockExists s successor = true)
    (linked : block.kind = .openBlock ∨ blockExists s block.previous = true) :
    ∃ blocks, blockPut env s (block.hash env) block successor = .ok { s with blocks := blocks } ∧
      blockExists { s with blocks := blocks } (block.hash env) = true := by
  rw [blockPut, ensure_true _ next, bind_ok]
  generalize block.serialize ++ wordBytes 32 successor = value
  have written := (put_raw_exists s block.kind (block.hash env) (block.hash env) value).mpr (Or.inl rfl)
  by_cases opening : block.kind = .openBlock
  · refine ⟨_, ?_, written⟩
    simp only [setPredecessor, opening, bind_ok, open_previous block opening, if_true]
    rfl
  · have present := (put_raw_exists s block.kind (block.hash env) block.previous value).mpr (Or.inr (linked.resolve_left opening))
    obtain ⟨⟨kind, row⟩, raw⟩ := (exists_raw _ _).mp present
    let s' := blockPutRaw s block.kind (block.hash env) value
    let pointing := row.take (row.length - 32) ++ wordBytes 32 (block.hash env)
    have filled : setPredecessor env s' block = .ok (blockPutRaw s' kind block.previous pointing) := by
      unfold setPredecessor
      split
      · next same => exact absurd same opening
      · rw [fillValue, raw, require_some, bind_ok]
    have back : blockSuccessor (blockPutRaw s' kind block.previous pointing) block.previous = .ok (block.hash env) := by
      simp [blockSuccessor, put_raw_get s' kind _ pointing row raw, pointing, bytes_word_word_bytes, ensure]
    refine ⟨_, ?_, (put_raw_exists s' kind block.previous (block.hash env) pointing).mpr (Or.inr written)⟩
    rw [filled, bind_ok, back, bind_ok, ensure_true _ rfl, bind_ok, ite_self]
    rfl

theorem block_put_unlinked (env : Env) (block : Block) (hash successor : Hash) (later : block.kind ≠ .openBlock)
    (present : blockExists s hash = true) (unlinked : blockExists s block.previous = false) :
    ∃ stopped, blockPut env s hash block successor = .error stopped := by
  by_cases next : successor = 0 ∨ blockExists s successor = true
  · have absent : blockGetRaw (blockPutRaw s block.kind hash (block.serialize ++ wordBytes 32 successor)) block.previous = none := by
      by_contra found
      have written := (exists_raw _ _).mpr (Option.ne_none_iff_exists'.mp found)
      obtain same | before := (put_raw_exists s block.kind hash block.previous _).mp written
      · rw [same, present] at unlinked
        cases unlinked
      · rw [before] at unlinked
        cases unlinked
    rw [blockPut, ensure_true _ next, bind_ok]
    unfold setPredecessor
    split
    · next same => exact absurd same later
    · rw [fillValue, absent]
      exact ⟨.abort, rfl⟩
  · rw [blockPut, ensure, if_neg next]
    exact ⟨.abort, rfl⟩

theorem block_put_again (env : Env) (block : Block) (successor : Hash) (next : successor = 0 ∨ blockExists s successor = true)
    (present : blockExists s (block.hash env) = true) :
    Settles (blockPut env s (block.hash env) block successor)
      (fun _ => ¬ (block.kind = .openBlock ∨ blockExists s block.previous = true))
      fun s' => (block.kind = .openBlock ∨ blockExists s block.previous = true) ∧ blockExists s' (block.hash env) = true ∧
        ∃ blocks, s' = { s with blocks := blocks } := by
  by_cases linked : block.kind = .openBlock ∨ blockExists s block.previous = true
  · obtain ⟨blocks, put, written⟩ := block_put_over s env block successor next linked
    exact settles_last put ⟨linked, written, blocks, rfl⟩
  · obtain ⟨later, unlinked⟩ := not_or.mp linked
    obtain ⟨stopped, put⟩ := block_put_unlinked s env block _ successor later present (by simpa using unlinked)
    rw [put, settles_error]
    exact linked

end Raw

end Rai
