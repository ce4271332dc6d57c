import Raiblocks.Frontiers
import Raiblocks.Replay

set_option autoImplicit false

namespace Rai

open Kit

structure FrontierReq where
  start : Account
  age : BitVec 32
deriving DecidableEq, Repr

-- `frontier_req_server`: the account it sends next with its entry, and zero once it is past the last one.
structure FrontierServer where
  current : Account
  info : AccountInfo
  request : FrontierReq

namespace FrontierServer

section Model

variable (s : Store) (now : BitVec 64)

def next (server : FrontierServer) : FrontierServer :=
  match s.accounts.seek (server.current + 1) with
  | some (account, info) => { server with current := account, info := info }
  | none => { server with current := 0 }

def skip : Nat → FrontierServer → Except Fault FrontierServer
  | 0, _ => .error .fuel
  | fuel + 1, server =>
      if server.current ≠ 0 ∧ server.request.age.setWidth 64 ≤ now - BitVec.ofNat 64 server.info.modified then skip fuel (next s server)
      else .ok server

def skipOld (fuel : Nat) (server : FrontierServer) : Except Fault FrontierServer :=
  if server.request.age ≠ .allOnes 32 then skip s now fuel server else .ok server

def begin (fuel : Nat) (request : FrontierReq) : Except Fault FrontierServer :=
  skipOld s now fuel (next s ⟨request.start - 1, ⟨0, 0, 0, 0, 0, 0⟩, request⟩)

-- `send_next` after every write; `send_finished` writes the last pair.
def sendAll : Nat → FrontierServer → Except Fault (List (Account × Hash))
  | 0, _ => .error .fuel
  | fuel + 1, server =>
      if server.current ≠ 0 then do
        let rest ← sendAll fuel (next s server)
        .ok ((server.current, server.info.head) :: rest)
      else .ok [(0, 0)]

def serve (fuel : Nat) (request : FrontierReq) : Except Fault (List (Account × Hash)) := do
  let server ← begin s now fuel request
  sendAll s fuel server

end Model

end FrontierServer

def FrontierReq.Fresh (request : FrontierReq) (now : BitVec 64) (info : AccountInfo) : Prop :=
  request.age = .allOnes 32 ∨ now.toNat - info.modified < request.age.toNat

instance freshDecidable (request : FrontierReq) (now : BitVec 64) (info : AccountInfo) : Decidable (request.Fresh now info) :=
  inferInstanceAs (Decidable (_ ∨ _))

def frontierPair (row : Account × AccountInfo) : Account × Hash := (row.1, row.2.head)

def FrontierReq.requested (request : FrontierReq) (now : BitVec 64) (s : Store) : List (Account × Hash) :=
  ((s.accounts.rowsFrom request.start).filter fun row => request.Fresh now row.2).map frontierPair

section Serving

variable (s : Store) (now : BitVec 64) (room : s.accounts.get (.allOnes 256) = none)
  (past : ∀ account info, s.accounts.get account = some info → info.modified ≤ now.toNat)

def FrontierServer.On (server : FrontierServer) : List (Account × AccountInfo) → Prop
  | [] => server.current = 0
  | row :: rest => server.current = row.1 ∧ server.info = row.2 ∧ row.1 ≠ 0 ∧ s.accounts.get row.1 = some row.2 ∧
      s.accounts.rowsFrom (row.1 + 1) = rest

theorem stale_iff (request : FrontierReq) (info : AccountInfo) (limited : request.age ≠ .allOnes 32)
    (before : info.modified ≤ now.toNat) :
    request.age.setWidth 64 ≤ now - BitVec.ofNat 64 info.modified ↔ ¬ request.Fresh now info := by
  have small := now.isLt
  have age := request.age.isLt
  have time : (BitVec.ofNat 64 info.modified).toNat = info.modified := by
    rw [BitVec.toNat_ofNat]
    exact Nat.mod_eq_of_lt (by omega)
  have elapsed : (now - BitVec.ofNat 64 info.modified).toNat = now.toNat - info.modified := by
    rw [BitVec.toNat_sub_of_le (by rw [BitVec.le_def, time]; exact before), time]
  rw [BitVec.le_def, elapsed, BitVec.toNat_setWidth, Nat.mod_eq_of_lt (by omega), FrontierReq.Fresh, or_iff_right limited, not_lt]

theorem next_request (server : FrontierServer) : (server.next s).request = server.request := by
  unfold FrontierServer.next
  split <;> rfl

include room

theorem known_room (row : Account × AccountInfo) (known : s.accounts.get row.1 = some row.2) : row.1 ≠ BitVec.allOnes 256 := by
  intro last
  rw [last, room] at known
  cases known

theorem next_on (server : FrontierServer) (rows : List (Account × AccountInfo)) (here : s.accounts.rowsFrom (server.current + 1) = rows)
    (nonzero : ∀ row ∈ rows, row.1 ≠ 0) : (server.next s).On s rows := by
  unfold FrontierServer.next
  rw [s.accounts.seek_rows_from, here]
  cases rows with
  | nil => rfl
  | cons row rest =>
      have known := ((s.accounts.mem_rows_from _ row).mp (here ▸ List.mem_cons_self)).1
      refine ⟨rfl, rfl, nonzero row List.mem_cons_self, known, ?_⟩
      exact s.accounts.rows_from_next _ _ row rest here fun key => account_succ_le_iff key (known_room s room row known)

theorem next_rest (server : FrontierServer) (row : Account × AccountInfo) (rest : List (Account × AccountInfo))
    (on : server.On s (row :: rest)) : (server.next s).On s rest := by
  obtain ⟨current, _, _, known, behind⟩ := on
  refine next_on s room server rest (by rw [current, behind]) fun other member => ?_
  have above := ((s.accounts.mem_rows_from _ other).mp (behind ▸ member)).2
  have later := (account_succ_le_iff other.1 (known_room s room row known)).mp above
  exact fun zero => absurd (zero ▸ later) (by bv_omega)

include past

theorem skip_rows (request : FrontierReq) (limited : request.age ≠ .allOnes 32) (rows : List (Account × AccountInfo))
    (server : FrontierServer) (on : server.On s rows) (asked : server.request = request) (fuel : Nat) (enough : rows.length < fuel) :
    ∃ after, server.skip s now fuel = .ok after ∧ after.On s (rows.dropWhile fun row => !request.Fresh now row.2) := by
  induction rows generalizing server fuel with
  | nil =>
      obtain ⟨fuel, rfl⟩ := Nat.exists_eq_add_one_of_ne_zero (Nat.ne_of_gt enough)
      have stopped : server.current = 0 := on
      exact ⟨server, by simp [FrontierServer.skip, stopped], on⟩
  | cons row rest ih =>
      obtain ⟨fuel, rfl⟩ := Nat.exists_eq_add_one_of_ne_zero (Nat.ne_of_gt (Nat.zero_lt_of_lt enough))
      have ⟨current, entry, nonzero, known, _⟩ := on
      have stale := stale_iff now request row.2 limited (past row.1 row.2 known)
      unfold FrontierServer.skip
      rw [current, entry, asked]
      by_cases fresh : request.Fresh now row.2
      · rw [if_neg (fun both => stale.mp both.2 fresh), List.dropWhile_cons_of_neg (by simpa using fresh)]
        exact ⟨server, rfl, on⟩
      · rw [if_pos ⟨nonzero, stale.mpr fresh⟩, List.dropWhile_cons_of_pos (by simpa using fresh)]
        exact ih (server.next s) (next_rest s room server row rest on) ((next_request s server).trans asked) fuel
          (by simpa using enough)

omit past

theorem send_rows (rows : List (Account × AccountInfo)) (server : FrontierServer) (on : server.On s rows) (fuel : Nat)
    (enough : rows.length < fuel) :
    server.sendAll s fuel = .ok (rows.map frontierPair ++ [(0, 0)]) := by
  induction rows generalizing server fuel with
  | nil =>
      obtain ⟨fuel, rfl⟩ := Nat.exists_eq_add_one_of_ne_zero (Nat.ne_of_gt enough)
      have stopped : server.current = 0 := on
      simp [FrontierServer.sendAll, stopped]
  | cons row rest ih =>
      obtain ⟨fuel, rfl⟩ := Nat.exists_eq_add_one_of_ne_zero (Nat.ne_of_gt (Nat.zero_lt_of_lt enough))
      have ⟨current, entry, nonzero, _⟩ := on
      unfold FrontierServer.sendAll
      rw [if_pos (current ▸ nonzero), ih (server.next s) (next_rest s room server row rest on) fuel
        (by simpa using enough), current, entry]
      rfl

section Requests

variable (request : FrontierReq)

-- An account 0 is taken for the end of the table.
omit room in
theorem serve_zero (zero : s.accounts.get 0 ≠ none) (start : request.start = 0) :
    Yields (fun fuel => FrontierServer.serve s now fuel request) [(0, 0)] := by
  obtain ⟨info, known⟩ := Option.ne_none_iff_exists'.mp zero
  have first : s.accounts.seek 0 = some (0, info) := by
    cases found : s.accounts.seek 0 with
    | none => exact absurd (s.accounts.seek_none 0 found 0 zero) (lt_irrefl 0)
    | some row =>
        obtain ⟨here, _, least⟩ := s.accounts.seek_some 0 row.1 row.2 found
        have low := least 0 zero le_rfl
        have same : row.1 = 0 := by bv_omega
        rw [same, known] at here
        exact congrArg some (Prod.ext same (Option.some.inj here).symm)
  have begun : FrontierServer.next s ⟨request.start - 1, ⟨0, 0, 0, 0, 0, 0⟩, request⟩ = ⟨0, info, request⟩ := by
    unfold FrontierServer.next
    dsimp only
    rw [sub_add_cancel, start, first]
  refine ⟨1, fun fuel enough => ?_⟩
  obtain ⟨fuel, rfl⟩ := Nat.exists_eq_add_one_of_ne_zero (Nat.ne_of_gt enough)
  unfold FrontierServer.serve FrontierServer.begin FrontierServer.skipOld
  rw [begun]
  simp [FrontierServer.skip, FrontierServer.sendAll]

include past

theorem begin_on (nonzero : ∀ row ∈ s.accounts.rowsFrom request.start, row.1 ≠ 0) (fuel : Nat)
    (enough : (s.accounts.rowsFrom request.start).length < fuel) : ∃ server, FrontierServer.begin s now fuel request = .ok server ∧
      server.On s ((s.accounts.rowsFrom request.start).dropWhile fun row => !request.Fresh now row.2) := by
  have on := next_on s room ⟨request.start - 1, ⟨0, 0, 0, 0, 0, 0⟩, request⟩ _ rfl
  dsimp only at on
  rw [sub_add_cancel] at on
  unfold FrontierServer.begin FrontierServer.skipOld
  rw [next_request]
  by_cases limited : request.age = .allOnes 32
  · rw [if_neg (not_not_intro limited)]
    refine ⟨_, rfl, ?_⟩
    have all : ((s.accounts.rowsFrom request.start).dropWhile fun row => !request.Fresh now row.2) =
      s.accounts.rowsFrom request.start := by
      cases s.accounts.rowsFrom request.start <;> simp [FrontierReq.Fresh, limited]
    rw [all]
    exact on nonzero
  · rw [if_pos limited]
    exact skip_rows s now room past request limited _ _ (on nonzero) (next_request s _) fuel enough

theorem serve_rows (nonzero : ∀ row ∈ s.accounts.rowsFrom request.start, row.1 ≠ 0) :
    Yields (fun fuel => FrontierServer.serve s now fuel request)
      (((s.accounts.rowsFrom request.start).dropWhile fun row => !request.Fresh now row.2).map frontierPair ++ [(0, 0)]) := by
  refine ⟨(s.accounts.rowsFrom request.start).length + 1, fun fuel enough => ?_⟩
  obtain ⟨server, begun, on⟩ := begin_on s now room past request nonzero fuel enough
  have shorter := (List.dropWhile_sublist (fun row : Account × AccountInfo => !request.Fresh now row.2)
    (l := s.accounts.rowsFrom request.start)).length_le
  change FrontierServer.serve s now fuel request = _
  rw [FrontierServer.serve, begun]
  exact send_rows s room _ server on fuel (shorter.trans_lt enough)

omit room past in
theorem requested_iff : request.requested now s ++ [(0, 0)] =
    ((s.accounts.rowsFrom request.start).dropWhile fun row => !request.Fresh now row.2).map frontierPair ++ [(0, 0)] ↔
      ∀ lower higher first second, s.accounts.get lower = some first → s.accounts.get higher = some second → request.start ≤ lower →
        lower < higher → request.Fresh now first → request.Fresh now second := by
  have passing := drop_while_passing (fun row => decide (request.Fresh now row.2)) _ (s.accounts.rows_from_ascending request.start)
  have kept := filter_drop_while (fun row : Account × AccountInfo => decide (request.Fresh now row.2))
    (s.accounts.rowsFrom request.start)
  rw [List.append_left_inj, FrontierReq.requested, ← kept]
  constructor
  · intro same lower higher first second known known' above less
    have lengths := congrArg List.length same
    rw [List.length_map, List.length_map, List.length_filter_eq_length_iff] at lengths
    have member := (s.accounts.mem_rows_from request.start (lower, first)).mpr ⟨known, above⟩
    have member' := (s.accounts.mem_rows_from request.start (higher, second)).mpr ⟨known', above.trans less.le⟩
    simpa using passing.mp lengths _ member _ member' less
  · intro onward
    rw [List.filter_eq_self.mpr]
    refine passing.mpr fun first member second member' less => ?_
    have known := (s.accounts.mem_rows_from request.start first).mp member
    have known' := (s.accounts.mem_rows_from request.start second).mp member'
    simpa using onward _ _ _ _ known.1 known'.1 known.2 less

omit room past in
theorem requested_none (start : request.start = 0) :
    request.requested now s = [] ↔ ∀ account info, s.accounts.get account = some info → ¬ request.Fresh now info := by
  rw [FrontierReq.requested, List.map_eq_nil_iff, List.filter_eq_nil_iff]
  constructor
  · intro none account info known
    have low : request.start ≤ account := by
      rw [start]
      bv_omega
    simpa using none _ ((s.accounts.mem_rows_from request.start (account, info)).mpr ⟨known, low⟩)
  · intro none row member
    simpa using none _ _ ((s.accounts.mem_rows_from request.start row).mp member).1

theorem frontiers_filtered_iff : Yields (fun fuel => FrontierServer.serve s now fuel request) (request.requested now s ++ [(0, 0)]) ↔
    (∀ lower higher first second, s.accounts.get lower = some first → s.accounts.get higher = some second → request.start ≤ lower →
      lower < higher → request.Fresh now first → request.Fresh now second) ∧
    (request.start = 0 → s.accounts.get 0 ≠ none → ∀ account info, s.accounts.get account = some info → ¬ request.Fresh now info) := by
  by_cases hidden : request.start = 0 ∧ s.accounts.get 0 ≠ none
  · have served := serve_zero s now request hidden.2 hidden.1
    have none := requested_none s now request hidden.1
    constructor
    · intro yields
      have stale := none.mp (List.append_left_eq_self.mp (yields_unique yields served))
      exact ⟨fun _ _ first _ known _ _ _ fresh => absurd fresh (stale _ first known), fun _ _ => stale⟩
    · intro claimed
      rw [none.mpr (claimed.2 hidden.1 hidden.2)]
      exact served
  · have nonzero : ∀ row ∈ s.accounts.rowsFrom request.start, row.1 ≠ 0 := by
      intro row member zero
      have known := (s.accounts.mem_rows_from request.start row).mp member
      rw [zero] at known
      exact hidden ⟨by bv_omega, known.1 ▸ Option.some_ne_none row.2⟩
    have served := serve_rows s now room past request nonzero
    rw [← requested_iff]
    constructor
    · intro yields
      exact ⟨yields_unique yields served, fun start present => absurd ⟨start, present⟩ hidden⟩
    · intro claimed
      rw [claimed.1]
      exact served

end Requests

end Serving

theorem rows_within (s : Store) (time : Nat) (listed : ∀ row ∈ s.accounts.rows, row.2.modified ≤ time) (account : Account)
    (info : AccountInfo) (known : s.accounts.get account = some info) : info.modified ≤ time :=
  listed _ ((s.accounts.lists_rows.entries account info).mpr known)

theorem rows_from_zero (s : Store) : s.accounts.rowsFrom 0 = s.accounts.rows :=
  List.filter_eq_self.mpr fun row _ => decide_eq_true (BitVec.le_def.mpr (Nat.zero_le row.1.toNat))

theorem frontiers_filtered_sample : ∃ s, Replay sampleEnv [sampleSend, sampleOpen] s ∧
    Yields (fun fuel => FrontierServer.serve s 5 fuel ⟨0, 10⟩) (FrontierReq.requested ⟨0, 10⟩ 5 s ++ [(0, 0)]) := by
  obtain ⟨s, _, replay, last, zero, times⟩ := replay_checked sampleEnv 20 [sampleSend, sampleOpen] (fun s =>
    s.accounts.get (.allOnes 256) = none ∧ s.accounts.get 0 = none ∧ ∀ row ∈ s.accounts.rows, row.2.modified ≤ 5) (by decide +kernel)
  have past := rows_within s 5 times
  refine ⟨s, replay, (frontiers_filtered_iff s 5 last past ⟨0, 10⟩).mpr ⟨?_, fun _ present => absurd zero present⟩⟩
  intro lower higher first second known known' above less fresh
  right
  exact (Nat.sub_le 5 second.modified).trans_lt (by decide)

-- The account that was opened is fresh and the genesis account after it is not, but is sent.
theorem old_frontier_sent : ∃ s, Replay sampleEnv [sampleSend, sampleOpen] s ∧ s.accounts.get (.allOnes 256) = none ∧
    (∀ account info, s.accounts.get account = some info → info.modified ≤ 100) ∧
    Yields (fun fuel => FrontierServer.serve s 100 fuel ⟨0, 50⟩)
      [(sampleKey 1, sampleOpen.hash sampleEnv), (genesisAccount sampleEnv.network, sampleSend.hash sampleEnv), (0, 0)] ∧
    FrontierReq.requested ⟨0, 50⟩ 100 s = [(sampleKey 1, sampleOpen.hash sampleEnv)] := by
  obtain ⟨s, _, replay, opened⟩ := replay_checked sampleEnv 20 [sampleSend] (fun s =>
    (ledgerProcess sampleEnv 20 (fun _ => 90) ⟨.old, 0, 0, 0⟩ s sampleOpen).map (fun out => (out.2.code, out.1.accounts.rows)) =
      .ok (.progress,
        [(sampleKey 1, ⟨sampleOpen.hash sampleEnv, sampleOpen.hash sampleEnv, sampleOpen.hash sampleEnv, genesisAmount - 5, 90, 1⟩),
        (genesisAccount sampleEnv.network, ⟨sampleSend.hash sampleEnv, genesisHash sampleEnv, genesisHash sampleEnv, 5, 0, 2⟩)]))
        (by decide +kernel)
  obtain ⟨out, returned, facts⟩ := map_returned opened
  obtain ⟨progress, rows⟩ := Prod.mk.inj facts
  have last : out.1.accounts.get (.allOnes 256) = none := by
    by_contra present
    have listed := (out.1.accounts.mem_rows _).mpr present
    rw [rows] at listed
    revert listed
    decide
  have past := rows_within out.1 100 (by rw [rows]; decide)
  have all := (rows_from_zero out.1).trans rows
  have nonzero : ∀ row ∈ out.1.accounts.rowsFrom 0, row.1 ≠ 0 := by
    rw [all]
    decide
  have served := serve_rows out.1 100 last past ⟨0, 50⟩ nonzero
  dsimp only at served
  rw [all] at served
  refine ⟨out.1, Replay.process _ _ _ _ s sampleOpen out replay returned progress, last, past, served, ?_⟩
  rw [FrontierReq.requested, all]
  rfl

end Rai
