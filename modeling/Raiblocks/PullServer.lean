import Raiblocks.Owners

set_option autoImplicit false

namespace Rai

open Kit

structure PullServer where
  start : Account
  «end» : Hash
  current : Hash

namespace PullServer

section Model

variable (s : Store)

-- An end that is no stored block is cleared: everything is sent.
def clearEnd («end» : Hash) : Hash := if blockExists s «end» = true then «end» else 0

def firstBlock (fuel : Nat) (start : Account) («end» : Hash) : Except Fault Hash :=
  match s.accounts.get start with
  | none => .ok «end»
  | some info =>
      if «end» ≠ 0 then do
        let account ← ledgerAccount fuel s «end»
        .ok (if account = start then info.head else «end»)
      else .ok info.head

def setCurrentEnd (fuel : Nat) (start : Account) («end» : Hash) : Except Fault PullServer := do
  let current ← firstBlock s fuel start (clearEnd s «end»)
  .ok ⟨start, clearEnd s «end», current⟩

def getNext (server : PullServer) : Except Fault (Option Block × PullServer) :=
  if server.current ≠ server.end then do
    let result ← blockGet s server.current
    match result with
    | some block => .ok (some block, { server with current := if block.previous ≠ 0 then block.previous else server.end })
    | none => .ok (none, { server with current := server.end })
  else .ok (none, server)

def sendAll : Nat → PullServer → Except Fault (List Block × PullServer)
  | 0, _ => .error .fuel
  | fuel + 1, server => do
      let (result, next) ← getNext s server
      match result with
      | some block => do
          let (rest, last) ← sendAll fuel next
          .ok (block :: rest, last)
      | none => .ok ([], next)

def serve (fuel : Nat) (start : Account) («end» : Hash) : Except Fault (List Block × PullServer) := do
  let server ← setCurrentEnd s fuel start «end»
  sendAll s fuel server

end Model

end PullServer

inductive Segment (s : Store) : Hash → List Block → Hash → Prop where
  | stop (h : Hash) : Segment s h [] h
  | block (h stop : Hash) (block : Block) (rest : List Block) (differs : h ≠ stop) (read : blockGet s h = .ok (some block))
      (below : Segment s block.previous rest stop) : Segment s h (block :: rest) stop

def Requested (s : Store) (start : Account) («end» : Hash) (blocks : List Block) : Prop :=
  match s.accounts.get start with
  | none => blocks = []
  | some info =>
      (blockExists s «end» = false → Segment s info.head blocks 0) ∧
      (blockExists s «end» = true → OnChain s start «end» → Segment s info.head blocks «end») ∧
      (blockExists s «end» = true → ¬ OnChain s start «end» → blocks = [])

theorem segment_path (s : Store) (h stop : Hash) (k : Nat) (path : Path s h k stop) (first : ∀ j, j < k → ¬ Path s h j stop) :
    ∃ blocks, Segment s h blocks stop := by
  induction path with
  | start h => exact ⟨[], Segment.stop h⟩
  | step h stop k block read _ ih =>
      obtain ⟨rest, below⟩ := ih fun j early path => first (j + 1) (by omega) ((path_succ_iff stop j read).mpr path)
      have differs : h ≠ stop := fun met => first 0 (by omega) ((path_zero_iff s h stop).mpr met.symm)
      exact ⟨block :: rest, Segment.block h stop block rest differs read below⟩

theorem get_next_stopped (s : Store) (server : PullServer) (stopped : server.current = server.end) :
    server.getNext s = .ok (none, server) := by
  simp [PullServer.getNext, stopped]

theorem send_all_stopped (s : Store) (fuel : Nat) (server : PullServer) (stopped : server.current = server.end) :
    server.sendAll s (fuel + 1) = .ok ([], server) := by
  rw [PullServer.sendAll, get_next_stopped s server stopped]
  rfl

theorem send_all_segment (s : Store) (zero : blockGet s 0 = .ok none) (h stop : Hash) (blocks : List Block)
    (segment : Segment s h blocks stop) (start : Account) (fuel : Nat) (enough : blocks.length < fuel) :
    PullServer.sendAll s fuel ⟨start, stop, h⟩ = .ok (blocks, ⟨start, stop, stop⟩) := by
  induction segment generalizing fuel with
  | stop h =>
      obtain ⟨fuel, rfl⟩ := Nat.exists_eq_add_one_of_ne_zero (Nat.ne_of_gt enough)
      exact send_all_stopped s fuel _ rfl
  | block h stop block rest differs read below ih =>
      obtain ⟨fuel, rfl⟩ := Nat.exists_eq_add_one_of_ne_zero (Nat.ne_of_gt (Nat.zero_lt_of_lt enough))
      -- A zero `previous` is not read: there the walk is at its end.
      have onward : (if block.previous ≠ 0 then block.previous else stop) = block.previous := by
        split
        · rfl
        · next bottom =>
            rw [not_not.mp bottom] at below ⊢
            cases below with
            | stop => rfl
            | block _ _ block' _ _ read' _ => rw [zero] at read'; cases read'
      have sent := ih fuel (by simpa using enough)
      simp only [PullServer.sendAll, PullServer.getNext, differs, ne_eq, not_false_eq_true, if_true, read, bind_ok, onward, sent]

theorem serve_yields (s : Store) (zero : blockGet s 0 = .ok none) (start : Account) («end» first : Hash) (blocks : List Block)
    (begins : Yields (fun fuel => PullServer.firstBlock s fuel start (PullServer.clearEnd s «end»)) first)
    (segment : Segment s first blocks (PullServer.clearEnd s «end»)) :
    ∃ server, Yields (fun fuel => PullServer.serve s fuel start «end») (blocks, server) ∧ server.getNext s = .ok (none, server) := by
  refine ⟨⟨start, PullServer.clearEnd s «end», PullServer.clearEnd s «end»⟩, ?_, get_next_stopped s _ rfl⟩
  refine yields_bind (yields_bind begins (yields_ok _)) ⟨blocks.length + 1, fun fuel enough => ?_⟩
  exact send_all_segment s zero first _ blocks segment start fuel enough

section Serving

variable {env : Env} {L : Lattice} {s : Store} [HashesApart env] (consistent : Consistent env L) (agrees : Agrees L s)

include consistent agrees

theorem segment_bottom (h : Hash) (n : Note) (stored : L.get h = some n) : ∃ blocks, Segment s h blocks 0 := by
  have positive := height_pos consistent stored
  obtain ⟨x, m, path, found, _, level, _⟩ := path_down consistent agrees (n.height - 1) h n stored (by omega)
  obtain ⟨block, read, reads⟩ := get_reads_as agrees.blocks x m found
  have bottom : block.previous = 0 :=
    (reads_as_previous m.block reads).trans ((open_height consistent found).mp (by omega))
  have last : Path s x 1 0 := (path_succ_iff 0 0 read).mpr ((path_zero_iff s _ 0).mpr bottom.symm)
  refine segment_path s h 0 n.height ?_ fun j early path' => ?_
  · have whole := path_append h x 0 (n.height - 1) 1 path last
    rwa [Nat.sub_add_cancel positive] at whole
  · obtain ⟨y, m', path'', found', _⟩ := path_down consistent agrees j h n stored early
    exact stored_ne_zero consistent y m' found' (path_unique h 0 y j path' path'').symm

theorem segment_stored (h stop : Hash) (n m : Note) (k : Nat) (path : Path s h k stop) (stored : L.get h = some n)
    (stored' : L.get stop = some m) : ∃ blocks, Segment s h blocks stop := by
  have level := path_height consistent agrees h stop k path n m stored stored'
  refine segment_path s h stop k path fun j early path' => ?_
  have level' := path_height consistent agrees h stop j path' n m stored stored'
  omega

end Serving

-- A request is answered with the range it names, and the server then has nothing more to send.
theorem pull_server_range (env : Env) (apart : HashesApart env) (s : Store) (reached : Reachable env s)
    (start : Account) («end» : Hash) :
    ∃ blocks server, Yields (fun fuel => PullServer.serve s fuel start «end») (blocks, server) ∧
      server.getNext s = .ok (none, server) ∧ Requested s start «end» blocks := by
  obtain ⟨L, consistent, agrees⟩ := reachable_agrees reached
  have zero : blockGet s 0 = .ok none := get_absent agrees.blocks 0 (zero_not_stored consistent)
  have answer : ∀ first blocks, Yields (fun fuel => PullServer.firstBlock s fuel start (PullServer.clearEnd s «end»)) first →
      Segment s first blocks (PullServer.clearEnd s «end») → Requested s start «end» blocks →
      ∃ blocks server, Yields (fun fuel => PullServer.serve s fuel start «end») (blocks, server) ∧
        server.getNext s = .ok (none, server) ∧ Requested s start «end» blocks := by
    intro first blocks begins segment asked
    obtain ⟨server, served, drained⟩ := serve_yields s zero start «end» first blocks begins segment
    exact ⟨blocks, server, served, drained, asked⟩
  cases known : s.accounts.get start with
  | none =>
      apply answer (PullServer.clearEnd s «end») []
      · simp only [PullServer.firstBlock, known]
        exact yields_ok _
      · exact Segment.stop _
      · simp [Requested, known]
  | some info =>
      obtain ⟨h, n, latest, owner, same⟩ := account_owned agrees known
      have head : info.head = h := by rw [same]; rfl
      by_cases present : blockExists s «end» = true
      · obtain ⟨m, stored⟩ := Option.ne_none_iff_exists'.mp ((exists_iff agrees.blocks «end»).mp present)
        have kept : PullServer.clearEnd s «end» = «end» := if_pos present
        have nonzero := stored_ne_zero consistent «end» m stored
        have chained := on_chain_iff consistent agrees «end» m stored start
        have begins : Yields (fun fuel => PullServer.firstBlock s fuel start (PullServer.clearEnd s «end»))
            (if m.account = start then info.head else «end») := by
          simp only [PullServer.firstBlock, known, kept, if_pos nonzero]
          exact yields_bind (account_yields consistent agrees «end» m stored) (yields_ok _)
        by_cases own : m.account = start
        · obtain ⟨info', k, known', _, path⟩ := chained.mpr own.symm
          cases known.symm.trans known'
          rw [if_pos own] at begins
          obtain ⟨blocks, segment⟩ := segment_stored consistent agrees info.head «end» n m k path (head ▸ latest.1) stored
          exact answer info.head blocks begins (kept.symm ▸ segment) (by simp [Requested, known, present, segment, chained, own])
        · rw [if_neg own] at begins
          exact answer «end» [] begins (kept.symm ▸ Segment.stop «end») (by simp [Requested, known, present, chained, Ne.symm own])
      · have cleared : PullServer.clearEnd s «end» = 0 := if_neg present
        obtain ⟨blocks, segment⟩ := segment_bottom consistent agrees h n latest.1
        apply answer info.head blocks
        · simp only [PullServer.firstBlock, known, cleared]
          exact yields_ok _
        · rw [cleared, head]
          exact segment
        · simp only [Requested, known]
          exact ⟨fun _ => head ▸ segment, fun stored => absurd stored present, fun stored => absurd stored present⟩

theorem pull_server_range_sample : ∃ s blocks server, Replay sampleEnv sampleLog s ∧
    Yields (fun fuel => PullServer.serve s fuel (sampleKey 2) (sampleOpenMore.hash sampleEnv)) (blocks, server) ∧
    server.getNext s = .ok (none, server) ∧ Requested s (sampleKey 2) (sampleOpenMore.hash sampleEnv) blocks := by
  obtain ⟨s, replay⟩ := sample_replayed
  obtain ⟨blocks, server, served⟩ := pull_server_range sampleEnv sample_apart s (replay_reachable replay) (sampleKey 2)
    (sampleOpenMore.hash sampleEnv)
  exact ⟨s, blocks, server, replay, served⟩

end Rai
