import Raiblocks.Chains
import Raiblocks.Kit.Cursor
import Raiblocks.Kit.Search

set_option autoImplicit false

namespace Rai

open Kit

-- The `unsynced` table has keys and no values.
def unsyncedDel (unsynced : Finset Hash) (hash : Hash) : Except Fault (Finset Hash) := do
  ensure (hash ∈ unsynced)
  .ok (unsynced.erase hash)

-- `push_synchronization`. The list is that of the source from its back.
structure PushSynchronization where
  unsynced : Finset Hash
  blocks : List Hash

namespace PushSynchronization

-- The test takes the hash out of the table.
def synchronized (sync : PushSynchronization) (hash : Hash) : Except Fault (PushSynchronization × Bool) :=
  if hash ∈ sync.unsynced then do
    let unsynced ← unsyncedDel sync.unsynced hash
    .ok ({ sync with unsynced := unsynced }, false)
  else .ok (sync, true)

variable (s : Store)

-- `add_dependency_visitor::add_dependency`. The flag is `complete`.
def addHash (visitor : PushSynchronization × Bool) (hash : Hash) : Except Fault (PushSynchronization × Bool) := do
  let (sync, known) ← visitor.1.synchronized hash
  if known then .ok (sync, visitor.2)
  else
    match ← blockGet s hash with
    | none => .ok (sync, visitor.2)
    | some _ => .ok ({ sync with blocks := hash :: sync.blocks }, false)

def addDependency (sync : PushSynchronization) (block : Block) : Except Fault (PushSynchronization × Bool) :=
  match block.hashables with
  | .sendBlock previous _ _ => addHash s (sync, true) previous
  | .sendBlockV2 previous _ _ => addHash s (sync, true) previous
  | .receiveBlock previous source => do
      let visitor ← addHash s (sync, true) previous
      if visitor.2 then addHash s visitor source else .ok visitor
  | .openBlock source _ _ => addHash s (sync, true) source
  | .changeBlock previous _ => addHash s (sync, true) previous

def fillDependencies : Nat → PushSynchronization → Except Fault PushSynchronization
  | 0, _ => .error .fuel
  | fuel + 1, sync => do
      let hash ← require sync.blocks.head?
      match ← blockGet s hash with
      | none => .ok sync
      | some block =>
          let visitor ← addDependency s sync block
          if visitor.2 then .ok visitor.1 else fillDependencies fuel visitor.1

end PushSynchronization

-- The write that is under way. Only the completion of one calls the client again.
inductive Writing where
  | block
  | marker
  | nothing
deriving DecidableEq, Repr

-- `bulk_push_client`, with the blocks it has written and the hash that each was retrieved by.
structure PushClient where
  sync : PushSynchronization
  sent : List (Hash × Block)
  writing : Writing

namespace PushClient

variable (s : Store) (fuel : Nat)

-- The target of the synchronization is `push_block`.
def synchronizeOne (client : PushClient) : Except Fault PushClient := do
  let sync ← client.sync.fillDependencies s fuel
  let hash ← require sync.blocks.head?
  let sync := { sync with blocks := sync.blocks.tail }
  match ← blockGet s hash with
  | some block => .ok ⟨sync, client.sent ++ [(hash, block)], .block⟩
  | none => .ok ⟨sync, client.sent, .nothing⟩

def sendFinished (client : PushClient) : PushClient := { client with writing := .marker }

def push (client : PushClient) : Except Fault PushClient :=
  let first : Option Hash := client.sync.unsynced.min
  match first with
  | none => .ok client.sendFinished
  | some hash =>
      if hash = 0 then .ok client.sendFinished
      else do
        let unsynced ← unsyncedDel client.sync.unsynced hash
        synchronizeOne s fuel { client with sync := ⟨unsynced, hash :: client.sync.blocks⟩ }

def wrote (client : PushClient) : Except Fault PushClient :=
  match client.writing with
  | .block => if client.sync.blocks = [] then client.push s fuel else client.synchronizeOne s fuel
  | .marker => .ok client
  | .nothing => .ok client

def run (unsynced : Finset Hash) : Nat → Except Fault PushClient
  | 0 => push s fuel ⟨⟨unsynced, []⟩, [], .nothing⟩
  | writes + 1 => do
      let client ← run unsynced writes
      client.wrote s fuel

end PushClient

def Block.dependencies (block : Block) : List Hash :=
  match block.hashables with
  | .receiveBlock previous source => [previous, source]
  | .openBlock source _ _ => [source]
  | _ => [block.previous]

def dependencies (s : Store) (hash : Hash) : Option (List Hash) :=
  match blockGet s hash with
  | .ok (some block) => some block.dependencies
  | _ => none

theorem add_dependency_fold (s : Store) (sync : PushSynchronization) (block : Block) :
    sync.addDependency s block =
      block.dependencies.foldlM (fun visitor hash => if visitor.2 then PushSynchronization.addHash s visitor hash else .ok visitor)
      (sync, true) := by
  obtain ⟨hashables, signature, work⟩ := block
  cases hashables with
  | receiveBlock previous source =>
      simp only [PushSynchronization.addDependency, Block.dependencies, List.foldlM_cons, List.foldlM_nil, if_true]
      congr 1
      funext visitor
      split <;> exact (bind_pure _).symm
  | _ =>
      simp only [PushSynchronization.addDependency, Block.dependencies, Block.previous, List.foldlM_cons, List.foldlM_nil, if_true]
      exact (bind_pure _).symm

-- The client is a search through `unsynced` by the dependencies.
section Search

variable {s : Store} (total : ∀ h, ∃ found, blockGet s h = .ok found)

def PushSynchronization.search (sync : PushSynchronization) (emitted : List Hash) : Search Hash := ⟨sync.unsynced, sync.blocks, emitted⟩

def PushClient.search (client : PushClient) : Search Hash := client.sync.search (client.sent.map Prod.fst)

theorem dependencies_read (h : Hash) (block : Block) (read : blockGet s h = .ok (some block)) :
    dependencies s h = some block.dependencies := by
  rw [dependencies, read]

theorem dependencies_missing (h : Hash) (missing : blockGet s h = .ok none) : dependencies s h = none := by
  rw [dependencies, missing]

include total in
theorem dependencies_cases (h : Hash) : (∃ block, blockGet s h = .ok (some block) ∧ dependencies s h = some block.dependencies) ∨
    blockGet s h = .ok none ∧ dependencies s h = none := by
  obtain ⟨found, read⟩ := total h
  cases found with
  | none => exact Or.inr ⟨read, dependencies_missing h read⟩
  | some block => exact Or.inl ⟨block, read, dependencies_read h block read⟩

theorem unsynced_del_member (unsynced : Finset Hash) (h : Hash) (member : h ∈ unsynced) :
    unsyncedDel unsynced h = .ok (unsynced.erase h) := by
  rw [unsyncedDel, ensure_true _ member, bind_ok]

structure Tested (s : Store) (sync : PushSynchronization) (tried : List Hash) (emitted : List Hash)
    (out : PushSynchronization × Bool) : Prop where
  runs : Search.Runs (dependencies s) (sync.search emitted) (out.1.search emitted)
  complete : out.2 = true → out.1.blocks = sync.blocks ∧ ∀ d ∈ tried, d ∉ out.1.unsynced
  pushed : out.2 = false → out.1.unsynced.card < sync.unsynced.card ∧ ∃ d, out.1.blocks = d :: sync.blocks ∧ dependencies s d ≠ none

include total in
theorem add_hash_tested (sync : PushSynchronization) (emitted : List Hash) (top d : Hash) (rest : List Hash)
    (above : sync.blocks = top :: rest) (named : Search.Names (dependencies s) top d) :
    ∃ out, PushSynchronization.addHash s (sync, true) d = .ok out ∧ out.1.unsynced ⊆ sync.unsynced ∧ Tested s sync [d] emitted out := by
  by_cases member : d ∈ sync.unsynced
  · have deleted : sync.synchronized d = .ok (⟨sync.unsynced.erase d, sync.blocks⟩, false) := by
      rw [PushSynchronization.synchronized, if_pos member, unsynced_del_member _ _ member, bind_ok]
    have shrinks := Finset.erase_subset d sync.unsynced
    obtain ⟨block, read, readable⟩ | ⟨read, unread⟩ := dependencies_cases total d
    · have readable : dependencies s d ≠ none := by simp [readable]
      refine ⟨(⟨sync.unsynced.erase d, d :: sync.blocks⟩, false), ?_, shrinks, ⟨?_, (fun complete => by cases complete), fun _ => ?_⟩⟩
      · simp only [PushSynchronization.addHash, deleted, bind_ok, read, Bool.false_eq_true, if_false]
      · exact Relation.ReflTransGen.single (.dive (sync.search emitted) top d rest above named member readable)
      · exact ⟨Finset.card_erase_lt_of_mem member, d, rfl, readable⟩
    · refine ⟨(⟨sync.unsynced.erase d, sync.blocks⟩, true), ?_, shrinks, ⟨?_, fun _ => ⟨rfl, ?_⟩, fun pushed => by cases pushed⟩⟩
      · simp only [PushSynchronization.addHash, deleted, bind_ok, read, Bool.false_eq_true, if_false]
      · exact Relation.ReflTransGen.single (.skip (sync.search emitted) top d rest above named member unread)
      · exact List.forall_mem_singleton.mpr (Finset.notMem_erase d sync.unsynced)
  · refine ⟨(sync, true), ?_, Finset.Subset.refl _, ⟨.refl, fun _ => ⟨rfl, List.forall_mem_singleton.mpr member⟩,
      fun pushed => by cases pushed⟩⟩
    simp only [PushSynchronization.addHash, PushSynchronization.synchronized, if_neg member, bind_ok, if_true]

include total in
theorem add_all_tested (list : List Hash) (sync : PushSynchronization) (emitted : List Hash) (top : Hash) (rest : List Hash)
    (above : sync.blocks = top :: rest) (named : ∀ d ∈ list, Search.Names (dependencies s) top d) :
    ∃ out, list.foldlM (fun visitor hash => if visitor.2 then PushSynchronization.addHash s visitor hash else .ok visitor)
    (sync, true) = .ok out ∧
      out.1.unsynced ⊆ sync.unsynced ∧ Tested s sync list emitted out := by
  induction list generalizing sync with
  | nil =>
      exact ⟨(sync, true), rfl, Finset.Subset.refl _, .refl, fun _ => ⟨rfl, by simp⟩, fun pushed => by cases pushed⟩
  | cons d list ih =>
      obtain ⟨first, others⟩ := List.forall_mem_cons.mp named
      obtain ⟨⟨mid, flag⟩, tried, shrinks, runs, complete, pushed⟩ := add_hash_tested total sync emitted top d rest above first
      cases flag with
      | false =>
          have stopped : list.foldlM (fun visitor hash => if visitor.2 then PushSynchronization.addHash s visitor hash else .ok visitor)
              (mid, false) = .ok (mid, false) := by
            clear ih named others
            induction list with
            | nil => rfl
            | cons d list again => exact again
          refine ⟨(mid, false), ?_, shrinks, runs, (fun complete => by cases complete), pushed⟩
          rw [List.foldlM_cons, if_pos rfl, tried]
          exact stopped
      | true =>
          obtain ⟨same, gone⟩ := complete rfl
          obtain ⟨out, went, smaller, onward, finished, grown⟩ := ih mid (same.trans above) others
          refine ⟨out, ?_, smaller.trans shrinks, runs.trans onward, fun done => ?_, fun more => ?_⟩
          · rw [List.foldlM_cons, if_pos rfl, tried]
            exact went
          · obtain ⟨kept, absent⟩ := finished done
            exact ⟨kept.trans same, List.forall_mem_cons.mpr ⟨fun still => gone d List.mem_cons_self (smaller still), absent⟩⟩
          · obtain ⟨fewer, x, next, read⟩ := grown more
            exact ⟨lt_of_lt_of_le fewer (Finset.card_le_card shrinks), x, same ▸ next, read⟩

include total in
theorem fill_dependencies_settles (fuel : Nat) (sync : PushSynchronization) (emitted : List Hash) (top : Hash) (rest : List Hash)
    (above : sync.blocks = top :: rest) (readable : dependencies s top ≠ none) :
    Settles (sync.fillDependencies s fuel) (Starved (sync.unsynced.card < fuel)) fun out =>
      Search.Runs (dependencies s) (sync.search emitted) (out.search emitted) ∧
      ∃ top rest, out.blocks = top :: rest ∧ dependencies s top ≠ none ∧ ∀ d, Search.Names (dependencies s) top d →
      d ∉ out.unsynced := by
  induction fuel generalizing sync top rest with
  | zero => exact ⟨rfl, Nat.not_lt_zero _⟩
  | succ fuel ih =>
      obtain ⟨block, read, listed⟩ | ⟨_, unread⟩ := dependencies_cases total top
      · have named : ∀ d, Search.Names (dependencies s) top d ↔ d ∈ block.dependencies := by
          intro d
          simp [Search.Names, listed]
        obtain ⟨⟨next, flag⟩, tried, shrinks, runs, complete, pushed⟩ :=
          add_all_tested total block.dependencies sync emitted top rest above fun d => (named d).mpr
        rw [← add_dependency_fold] at tried
        simp only [PushSynchronization.fillDependencies, above, List.head?_cons, require_some, bind_ok, read, tried]
        cases flag with
        | true =>
            obtain ⟨same, gone⟩ := complete rfl
            exact ⟨runs, top, rest, same.trans above, readable, fun d name => gone d ((named d).mp name)⟩
        | false =>
            obtain ⟨fewer, d, next', read'⟩ := pushed rfl
            refine settles_mono (settles_enough (ih next d sync.blocks next' read') fun enough => ?_) (fun _ => id) fun out met =>
              ⟨runs.trans met.1, met.2⟩
            have smaller : next.unsynced.card < sync.unsynced.card := fewer
            omega
      · exact absurd unread readable

inductive Pushing (s : Store) (start : Finset Hash) (client : PushClient) : Prop where
  | underway (writing : client.writing = .block) (runs : Search.Runs (dependencies s) (Search.begin start) client.search)
  | finished (writing : client.writing = .marker) (runs : Search.Runs (dependencies s) (Search.begin start) client.search)
      (idle : client.sync.blocks = []) (last : client.sync.unsynced = ∅ ∨ 0 ∈ client.sync.unsynced)
  | stuck (writing : client.writing = .nothing) (q : Search Hash) (root : Hash)
    (runs : Search.Runs (dependencies s) (Search.begin start) q)
      (idle : q.stack = []) (sent : q.emitted = client.sent.map Prod.fst) (member : root ∈ q.wanted) (least : ∀ x ∈ q.wanted, root ≤ x)
      (unread : dependencies s root = none)

structure Tracks (s : Store) (start : Finset Hash) (writes : Nat) (client : PushClient) : Prop where
  stands : Pushing s start client
  read : ∀ h block, (h, block) ∈ client.sent → blockGet s h = .ok (some block)
  count : client.writing = .block → client.sent.length = writes + 1

include total in
theorem synchronize_one_settles (fuel : Nat) (client : PushClient) (top : Hash) (rest : List Hash)
    (above : client.sync.blocks = top :: rest) (readable : dependencies s top ≠ none) :
    Settles (client.synchronizeOne s fuel) (Starved (client.sync.unsynced.card < fuel)) fun out =>
      out.writing = .block ∧ Search.Runs (dependencies s) client.search out.search ∧
      ∃ h block, out.sent = client.sent ++ [(h, block)] ∧ blockGet s h = .ok (some block) := by
  refine settles_bind (fill_dependencies_settles total fuel client.sync (client.sent.map Prod.fst) top rest above readable) ?_
  rintro sync ⟨runs, h, below, top', read, clear⟩
  obtain ⟨block, found, _⟩ | ⟨_, unread⟩ := dependencies_cases total h
  · simp only [top', List.head?_cons, require_some, bind_ok, found, List.tail_cons]
    refine ⟨rfl, runs.tail ?_, h, block, rfl, found⟩
    have emit := Search.Step.emit (sync.search (client.sent.map Prod.fst)) h below top' clear
    simpa [PushClient.search, PushSynchronization.search] using emit
  · exact absurd unread read

include total in
theorem synchronize_one_tracks (fuel writes : Nat) (start : Finset Hash) (client : PushClient) (top : Hash) (rest : List Hash)
    (above : client.sync.blocks = top :: rest) (readable : dependencies s top ≠ none)
    (runs : Search.Runs (dependencies s) (Search.begin start) client.search)
    (read : ∀ h block, (h, block) ∈ client.sent → blockGet s h = .ok (some block)) (count : client.sent.length = writes) :
    Settles (client.synchronizeOne s fuel) (Starved (client.sync.unsynced.card < fuel)) (Tracks s start writes) := by
  refine settles_mono (synchronize_one_settles total fuel client top rest above readable) (fun _ => id) ?_
  rintro out ⟨writing, onward, h, block, sent, found⟩
  refine ⟨.underway writing (runs.trans onward), fun x b listed => ?_, fun _ => by simp [sent, count]⟩
  rw [sent] at listed
  obtain old | new := List.mem_append.mp listed
  · exact read x b old
  · obtain ⟨rfl, rfl⟩ := Prod.mk.inj (List.mem_singleton.mp new)
    exact found

include total in
theorem push_tracks (fuel writes : Nat) (start : Finset Hash) (client : PushClient) (idle : client.sync.blocks = [])
    (runs : Search.Runs (dependencies s) (Search.begin start) client.search)
    (read : ∀ h block, (h, block) ∈ client.sent → blockGet s h = .ok (some block)) (count : client.sent.length = writes) :
    Settles (client.push s fuel) (Starved (client.sync.unsynced.card < fuel)) (Tracks s start writes) := by
  have done : client.sync.unsynced = ∅ ∨ 0 ∈ client.sync.unsynced → Tracks s start writes client.sendFinished := fun last =>
    ⟨.finished rfl runs idle last, read, fun writing => by cases writing⟩
  cases first : client.sync.unsynced.min with
  | top =>
      simp only [PushClient.push, first]
      exact done (Or.inl (Finset.min_eq_top.mp first))
  | coe root =>
      have member := Finset.mem_of_min first
      have least : ∀ x ∈ client.sync.unsynced, root ≤ x := fun x other => Finset.min_le_of_eq other first
      simp only [PushClient.push, first]
      by_cases zero : root = 0
      · simp only [zero, if_true]
        exact done (Or.inr (zero ▸ member))
      · simp only [zero, if_false, unsynced_del_member _ _ member, bind_ok, idle]
        obtain ⟨block, found, listed⟩ | ⟨missing, unread⟩ := dependencies_cases total root
        · have readable : dependencies s root ≠ none := by simp [listed]
          have picked := Search.Step.pick client.search root idle member least readable
          refine settles_enough
            (synchronize_one_tracks total fuel writes start ⟨⟨client.sync.unsynced.erase root, [root]⟩, client.sent, client.writing⟩
            root [] rfl readable (runs.tail picked) read count) fun enough => ?_
          exact lt_of_le_of_lt (Finset.card_le_card (Finset.erase_subset root _)) enough
        · cases fuel with
          | zero => exact ⟨rfl, Nat.not_lt_zero _⟩
          | succ fuel =>
              simp only [PushClient.synchronizeOne, PushSynchronization.fillDependencies, List.head?_cons,
                require_some, bind_ok, missing]
              exact ⟨.stuck rfl client.search root runs idle rfl member least unread, read, fun writing => by cases writing⟩

variable {rank : Hash → Nat} (drops : ∀ x d, Search.Names (dependencies s) x d → dependencies s d ≠ none → rank d < rank x)
include total drops

theorem wrote_tracks (fuel writes : Nat) (start : Finset Hash) (client : PushClient) (tracks : Tracks s start writes client) :
    Settles (client.wrote s fuel) (Starved (start.card < fuel)) (Tracks s start (writes + 1)) := by
  obtain ⟨stands, read, count⟩ := tracks
  have still : client.writing ≠ .block → Tracks s start (writes + 1) client :=
    fun other => ⟨stands, read, fun writing => absurd writing other⟩
  cases writing : client.writing with
  | marker =>
      rw [PushClient.wrote, writing]
      exact still (by simp [writing])
  | nothing =>
      rw [PushClient.wrote, writing]
      exact still (by simp [writing])
  | block =>
      cases stands with
      | finished other => rw [writing] at other; cases other
      | stuck other => rw [writing] at other; cases other
      | underway _ runs =>
          have sound := Search.sound_runs drops Search.sound_begin runs
          have fewer : client.sync.unsynced.card ≤ start.card := Finset.card_le_card sound.within
          simp only [PushClient.wrote, writing]
          cases stack : client.sync.blocks with
          | nil =>
              rw [if_pos rfl]
              exact settles_enough (push_tracks total fuel (writes + 1) start client stack runs read (count writing)) fun enough => by
                omega
          | cons top rest =>
              have stacked : top ∈ client.search.stack := by
                change top ∈ client.sync.blocks
                rw [stack]
                exact List.mem_cons_self
              have readable := (sound.placed top (List.mem_append_left _ stacked)).2.2
              rw [if_neg (List.cons_ne_nil top rest)]
              exact settles_enough
                (synchronize_one_tracks total fuel (writes + 1) start client top rest stack readable runs read (count writing))
                fun enough => by omega

theorem run_tracks (fuel writes : Nat) (start : Finset Hash) :
    Settles (PushClient.run s fuel start writes) (Starved (start.card < fuel)) (Tracks s start writes) := by
  induction writes with
  | zero => exact push_tracks total fuel 0 start ⟨⟨start, []⟩, [], .nothing⟩ rfl .refl (by simp) rfl
  | succ writes ih => exact settles_bind ih fun client tracks => wrote_tracks total drops fuel writes start client tracks

end Search

section Ledger

variable {env : Env} {L : Lattice} {s : Store} (consistent : Consistent env L) (agrees : Agrees L s)

include agrees in
theorem block_get_total (h : Hash) : ∃ found, blockGet s h = .ok found := by
  cases stored : L.get h with
  | none => exact ⟨none, get_absent agrees.blocks h stored⟩
  | some n =>
      obtain ⟨block, read, _⟩ := get_reads_as agrees.blocks h n stored
      exact ⟨some block, read⟩

theorem dependencies_named (block : Block) (d : Hash) (member : d ∈ block.dependencies) : d = block.previous ∨ d = block.source := by
  unfold Block.dependencies at member
  split at member
  · next previous source fields => simpa [Block.previous, Block.source, fields] using member
  · next source representative account fields => exact Or.inr (by simpa [Block.source, fields] using member)
  · exact Or.inl (List.mem_singleton.mp member)

theorem named_dependencies (block : Block) (d : Hash) (nonzero : d ≠ 0) (named : d = block.previous ∨ d = block.source) :
    d ∈ block.dependencies := by
  obtain ⟨hashables, signature, work⟩ := block
  cases hashables <;> simp_all [Block.dependencies, Block.previous, Block.source]

include agrees in
theorem dependencies_stored_iff (h : Hash) : dependencies s h ≠ none ↔ L.get h ≠ none := by
  cases stored : L.get h with
  | none => simp [dependencies_missing h (get_absent agrees.blocks h stored)]
  | some n =>
      obtain ⟨block, read, _⟩ := get_reads_as agrees.blocks h n stored
      simp [dependencies_read h block read]

include agrees in
theorem dependencies_needs (x d : Hash) (named : Search.Names (dependencies s) x d) (read : dependencies s d ≠ none) : Needs L x d := by
  obtain ⟨list, found, member⟩ := named
  obtain ⟨block, held, listed⟩ | ⟨_, unread⟩ := dependencies_cases (block_get_total agrees) x
  · obtain ⟨n, stored, same⟩ := read_stored agrees held
    rw [listed] at found
    rw [← Option.some.inj found] at member
    have link := dependencies_named block d member
    rw [reads_as_previous n.block same, reads_as_source n.block block same] at link
    exact ⟨n, stored, link, (dependencies_stored_iff agrees d).mp read⟩
  · rw [unread] at found
    cases found

include consistent in
theorem named_stored [HashesApart env] (x d : Hash) (n : Note) (stored : L.get x = some n) (nonzero : d ≠ 0)
    (named : d = n.block.previous ∨ d = n.block.source) :
    L.get d ≠ none ∨ x = genesisHash env ∧ d = genesisAccount env.network := by
  obtain before | source := named
  · obtain ⟨m, present, _⟩ := stored_before consistent stored (before ▸ nonzero)
    exact Or.inl (by simp [before, present])
  · by_cases atGenesis : x = genesisHash env
    · subst atGenesis
      obtain ⟨stamp, rfl⟩ := stored_genesis consistent n stored
      exact Or.inr ⟨rfl, source⟩
    · obtain ⟨_, sent, sentTo, _⟩ := stored_source consistent x d n stored source.symm (Or.inr ⟨nonzero, atGenesis⟩)
      exact Or.inl (by simp [sentTo.1])

section Ranked

variable {rank : Hash → Nat} {top : Nat} (ranked : Ranked rank top L)
include agrees ranked

theorem dependencies_drop (x d : Hash) (named : Search.Names (dependencies s) x d) (read : dependencies s d ≠ none) : rank d < rank x :=
  ranked.drops x d (dependencies_needs agrees x d named read)

theorem search_sound (start : Finset Hash) (q : Search Hash) (runs : Search.Runs (dependencies s) (Search.begin start) q) :
    Search.Sound (dependencies s) rank start q :=
  Search.sound_runs (dependencies_drop agrees ranked) Search.sound_begin runs

theorem sent_few (start : Finset Hash) (client : PushClient) (runs : Search.Runs (dependencies s) (Search.begin start) client.search) :
    client.sent.length ≤ start.card := by
  have sound := search_sound agrees ranked start _ runs
  have once : (client.sent.map Prod.fst).Nodup := (List.nodup_append.mp sound.once).2.1
  have inside : (client.sent.map Prod.fst).toFinset ⊆ start := fun x member =>
    (sound.placed x (List.mem_append_right _ (List.mem_toFinset.mp member))).1
  have bound := Finset.card_le_card inside
  rwa [List.toFinset_card_of_nodup once, List.length_map] at bound

theorem emptied_sent (start : Finset Hash) (writes : Nat) (client : PushClient) (tracks : Tracks s start writes client)
    (runs : Search.Runs (dependencies s) (Search.begin start) client.search) (idle : client.sync.blocks = [])
    (emptied : client.sync.unsynced = ∅) (h : Hash) (inside : h ∈ start) (block : Block) (read : blockGet s h = .ok (some block)) :
    (h, block) ∈ client.sent := by
  have sound := search_sound agrees ranked start _ runs
  have unwanted : h ∉ client.search.wanted := by
    change h ∉ client.sync.unsynced
    rw [emptied]
    exact Finset.notMem_empty h
  obtain stacked | emitted := List.mem_append.mp (sound.kept h inside unwanted (by simp [dependencies_read h block read]))
  · change h ∈ client.sync.blocks at stacked
    rw [idle] at stacked
    cases stacked
  · obtain ⟨⟨x, other⟩, member, rfl⟩ := List.mem_map.mp emitted
    have same := (tracks.read x other member).symm.trans read
    obtain rfl := Option.some.inj (Except.ok.inj same)
    exact member

theorem push_run_returns (fuel writes : Nat) (start : Finset Hash) (enough : start.card < fuel) :
    ∃ client, PushClient.run s fuel start writes = .ok client ∧ Tracks s start writes client :=
  settles_returns (run_tracks (block_get_total agrees) (dependencies_drop agrees ranked) fuel writes start) enough

end Ranked

omit consistent agrees in
theorem tracks_emitted (start : Finset Hash) (writes : Nat) (client : PushClient) (tracks : Tracks s start writes client) :
    ∃ q, Search.Runs (dependencies s) (Search.begin start) q ∧ q.emitted = client.sent.map Prod.fst := by
  cases tracks.stands with
  | underway _ runs => exact ⟨client.search, runs, rfl⟩
  | finished _ runs => exact ⟨client.search, runs, rfl⟩
  | stuck _ q _ runs _ sent => exact ⟨q, runs, sent⟩

end Ledger

-- What the client has sent after any number of completed writes. The genesis block is the one that names as its source a
-- number that is no block, so an entry of that number is never sent.
theorem push_order (env : Env) (apart : HashesApart env) (s : Store) (reached : Reachable env s) (unsynced : Finset Hash)
    (fuel writes : Nat) (enough : unsynced.card < fuel) :
    ∃ client, PushClient.run s fuel unsynced writes = .ok client ∧ (client.sent.map Prod.snd).Nodup ∧
      (∀ h block, (h, block) ∈ client.sent → h ∈ unsynced ∧ blockGet s h = .ok (some block)) ∧
      ∀ before h block, before ++ [(h, block)] <+: client.sent → ∀ d ∈ unsynced, d = block.previous ∨ d = block.source →
        d ∈ before.map Prod.fst ∨ h = genesisHash env ∧ d = genesisAccount env.network := by
  obtain ⟨L, consistent, agrees⟩ := reachable_agrees reached
  obtain ⟨rank, top, ranked⟩ := exists_ranked consistent
  obtain ⟨client, ran, tracks⟩ := push_run_returns agrees ranked fuel writes unsynced enough
  obtain ⟨q, runs, sent⟩ := tracks_emitted unsynced writes client tracks
  have sound := search_sound agrees ranked unsynced q runs
  have listed : ∀ h block, (h, block) ∈ client.sent → h ∈ q.emitted := fun h block member => sent ▸ List.mem_map.mpr ⟨_, member, rfl⟩
  have once : (client.sent.map Prod.fst).Nodup := sent ▸ (List.nodup_append.mp sound.once).2.1
  refine ⟨client, ran, ?_, fun h block member => ⟨?_, tracks.read h block member⟩, ?_⟩
  · refine List.Nodup.map_on ?_ (List.Nodup.of_map _ once)
    rintro ⟨x, block⟩ member ⟨y, _⟩ member' rfl
    rw [read_injective consistent agrees x y block (tracks.read x block member) (tracks.read y block member')]
  · exact (sound.placed h (List.mem_append_right _ (listed h block member))).1
  · intro before h block cut d inside named
    have member : (h, block) ∈ client.sent := cut.subset (List.mem_append_right _ List.mem_cons_self)
    have read := tracks.read h block member
    have nonzero : d ≠ 0 := by
      rintro rfl
      have unread : dependencies s 0 = none := dependencies_missing 0 (get_absent agrees.blocks 0 (zero_not_stored consistent))
      have least : ∀ x ∈ unsynced, (0 : Hash) ≤ x := fun x _ => by simp [BitVec.le_def]
      have empty := listed h block member
      rw [Search.runs_blocked 0 inside least unread runs] at empty
      cases empty
    obtain ⟨n, stored, same⟩ := read_stored agrees read
    have link : Search.Names (dependencies s) h d := ⟨_, dependencies_read h block read, named_dependencies block d nonzero named⟩
    rw [reads_as_previous n.block same, reads_as_source n.block block same] at named
    obtain present | genesis := named_stored consistent h d n stored nonzero named
    · refine Or.inl (sound.ordered (before.map Prod.fst) h ?_ d link inside ((dependencies_stored_iff agrees d).mpr present))
      rw [sent]
      simpa using cut.map Prod.fst
    · exact Or.inr genesis

theorem push_order_sample : ∃ s client, Replay sampleEnv sampleLog s ∧
    PushClient.run s 4 {sampleOpen.hash sampleEnv, sampleSend.hash sampleEnv, genesisHash sampleEnv} 2 = .ok client ∧
    (client.sent.map Prod.snd).Nodup := by
  obtain ⟨s, replay⟩ := sample_replayed
  obtain ⟨client, ran, once, _⟩ := push_order sampleEnv sample_apart s (replay_reachable replay)
    {sampleOpen.hash sampleEnv, sampleSend.hash sampleEnv, genesisHash sampleEnv} 4 2 (by decide +kernel)
  exact ⟨s, client, replay, ran, once⟩

-- The number of the genesis account in the table, beside the genesis block that names it as its source.
theorem push_skips_genesis_source :
    ∃ s client, genesisInitialize sampleEnv Store.fresh 0 = .ok s ∧
      PushClient.run s 5 {genesisHash sampleEnv, genesisAccount sampleEnv.network} 0 = .ok client ∧
      client.sent = [(genesisHash sampleEnv, genesisOpen sampleEnv.network)] ∧
      (genesisOpen sampleEnv.network).source = genesisAccount sampleEnv.network := by
  have computed : (genesisInitialize sampleEnv Store.fresh 0 >>= fun s =>
      (PushClient.run s 5 {genesisHash sampleEnv, genesisAccount sampleEnv.network} 0).map PushClient.sent) =
      .ok [(genesisHash sampleEnv, genesisOpen sampleEnv.network)] := by decide +kernel
  obtain ⟨s, started, pushed⟩ := bind_returned computed
  obtain ⟨client, ran, sent⟩ := map_returned pushed
  exact ⟨s, client, started, ran, sent, rfl⟩

def PushFinishes (s : Store) (unsynced : Finset Hash) : Prop :=
  ∃ writes, ∀ fuel, unsynced.card < fuel → ∃ client, PushClient.run s fuel unsynced writes = .ok client ∧ client.writing = .marker ∧
    client.sync.unsynced = ∅ ∧ ∀ h ∈ unsynced, ∀ block, blockGet s h = .ok (some block) → (h, block) ∈ client.sent

-- From one entry to another along `previous` and `source`, without leaving the table.
def DependsThrough (s : Store) (unsynced : Finset Hash) : Hash → Hash → Prop :=
  Relation.ReflTransGen fun x y => y ∈ unsynced ∧ ∃ block, blockGet s x = .ok (some block) ∧ (y = block.previous ∨ y = block.source)

theorem depends_through_leads (s : Store) (total : ∀ h, ∃ found, blockGet s h = .ok found) (unsynced : Finset Hash)
    (nonzero : 0 ∉ unsynced) :
    DependsThrough s unsynced = Search.Leads (dependencies s) unsynced := by
  have same : (fun x y => y ∈ unsynced ∧ ∃ block, blockGet s x = .ok (some block) ∧ (y = block.previous ∨ y = block.source)) =
      fun x y => y ∈ unsynced ∧ Search.Names (dependencies s) x y := by
    funext x y
    apply propext
    refine and_congr_right fun inside => ⟨?_, ?_⟩
    · rintro ⟨block, read, named⟩
      exact ⟨_, dependencies_read x block read, named_dependencies block y (fun zero => nonzero (zero ▸ inside)) named⟩
    · rintro ⟨list, found, member⟩
      obtain ⟨block, read, listed⟩ | ⟨_, unread⟩ := dependencies_cases total x
      · rw [listed] at found
        exact ⟨block, read, dependencies_named block y (Option.some.inj found ▸ member)⟩
      · rw [unread] at found
        cases found
  rw [DependsThrough, same]
  rfl

-- An entry that is no stored block stops the client for good when it comes first in the table. It does not come first
-- only if a smaller entry leads to a block that names it.
theorem push_finishes_iff (env : Env) (apart : HashesApart env) (s : Store) (reached : Reachable env s) (unsynced : Finset Hash)
    (nonzero : 0 ∉ unsynced) :
    PushFinishes s unsynced ↔ ∀ h ∈ unsynced, blockExists s h = true ∨ ∃ x ∈ unsynced, x < h ∧ DependsThrough s unsynced x h := by
  obtain ⟨L, consistent, agrees⟩ := reachable_agrees reached
  obtain ⟨rank, top, ranked⟩ := exists_ranked consistent
  have stored_iff : ∀ h, dependencies s h ≠ none ↔ blockExists s h = true := fun h =>
    (dependencies_stored_iff agrees h).trans (exists_iff agrees.blocks h).symm
  rw [depends_through_leads s (block_get_total agrees) unsynced nonzero]
  constructor
  · rintro ⟨writes, finishes⟩ h inside
    obtain ⟨client, ran, marked, emptied, _⟩ := finishes (unsynced.card + 1) (Nat.lt_succ_self _)
    obtain ⟨client', ran', tracks⟩ := push_run_returns agrees ranked _ writes unsynced (Nat.lt_succ_self _)
    obtain rfl := Except.ok.inj (ran.symm.trans ran')
    cases tracks.stands with
    | underway writing => rw [marked] at writing; cases writing
    | stuck writing => rw [marked] at writing; cases writing
    | finished _ runs =>
        obtain ⟨root, member, _, leads, below⟩ := (Search.rooted_runs runs).taken h inside (by
          change h ∉ client.sync.unsynced
          rw [emptied]
          exact Finset.notMem_empty h)
        refine or_iff_not_imp_left.mpr fun missing => ⟨root, member, below ?_, leads⟩
        exact not_not.mp ((stored_iff h).not.mpr missing)
  · intro covered
    refine ⟨unsynced.card, fun fuel enough => ?_⟩
    obtain ⟨client, ran, tracks⟩ := push_run_returns agrees ranked fuel unsynced.card unsynced enough
    cases tracks.stands with
    | underway writing runs =>
        -- More blocks would have been sent than there are entries.
        have more := tracks.count writing
        have few := sent_few agrees ranked unsynced client runs
        omega
    | stuck _ q root runs idle _ member least unread =>
        have sound := search_sound agrees ranked unsynced q runs
        refine absurd unread (Search.root_readable sound idle root member least fun _ => ?_)
        exact (covered root (sound.within member)).resolve_left fun present => (stored_iff root).mpr present unread
    | finished writing runs idle last =>
        have sound := search_sound agrees ranked unsynced _ runs
        have emptied : client.sync.unsynced = ∅ := last.resolve_right fun zero => nonzero (sound.within zero)
        exact ⟨client, ran, writing, emptied, emptied_sent agrees ranked unsynced _ client tracks runs idle emptied⟩

theorem push_finishes_sample : ∃ s, Replay sampleEnv sampleLog s ∧
    PushFinishes s {sampleOpen.hash sampleEnv, sampleSend.hash sampleEnv} := by
  obtain ⟨s, replay⟩ := sample_replayed
  refine ⟨s, replay, (push_finishes_iff sampleEnv sample_apart s (replay_reachable replay) _ (by decide +kernel)).mpr fun h member =>
    ?_⟩
  have stored := replay_stored sampleLog s (by decide) replay
  obtain rfl | last := Finset.mem_insert.mp member
  · exact Or.inl (stored sampleOpen (by simp [sampleLog]))
  · rw [Finset.mem_singleton.mp last]
    exact Or.inl (stored sampleSend (by simp [sampleLog]))

def sampleRolledBack : Except Fault Store := do
  let s ← genesisInitialize sampleEnv Store.fresh 0
  let out ← ledgerProcess sampleEnv 20 (fun _ => 0) ⟨.old, 0, 0, 0⟩ s sampleSend
  ledgerRollback sampleEnv (fun _ => 0) 20 out.1 (sampleSend.hash sampleEnv)

theorem stuck_stays (s : Store) (fuel writes : Nat) (unsynced : Finset Hash) (client : PushClient) (stuck : client.writing = .nothing)
    (ran : PushClient.run s fuel unsynced 0 = .ok client) : PushClient.run s fuel unsynced writes = .ok client := by
  induction writes with
  | zero => exact ran
  | succ writes ih => rw [PushClient.run, ih, bind_ok, PushClient.wrote, stuck]

-- The entry of the block that was rolled back comes first, so not even the genesis block is sent.
theorem push_stalls : ∃ s, sampleRolledBack = .ok s ∧ blockExists s (genesisHash sampleEnv) = true ∧
    ¬ PushFinishes s {genesisHash sampleEnv, sampleSend.hash sampleEnv} := by
  have computed :
    (sampleRolledBack >>= fun s => (PushClient.run s 3 {genesisHash sampleEnv, sampleSend.hash sampleEnv} 0).map fun client =>
      (decide (client.writing = .nothing), blockExists s (genesisHash sampleEnv))) = .ok (true, true) := by decide +kernel
  obtain ⟨s, rolled, pushed⟩ := bind_returned computed
  obtain ⟨client, ran, facts⟩ := map_returned pushed
  obtain ⟨halted, present⟩ := Prod.mk.inj facts
  have stuck : client.writing = .nothing := of_decide_eq_true halted
  refine ⟨s, rolled, present, ?_⟩
  rintro ⟨writes, finishes⟩
  obtain ⟨other, ran', marked, _⟩ := finishes 3 (by decide +kernel)
  rw [stuck_stays s 3 writes _ client stuck ran] at ran'
  obtain rfl := Except.ok.inj ran'
  rw [stuck] at marked
  cases marked

end Rai
