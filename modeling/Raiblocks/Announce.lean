import Raiblocks.Kit.Cursor
import Raiblocks.Tally
import Raiblocks.VoteStore

set_option autoImplicit false

namespace Rai

open Kit

structure ConflictInfo where
  election : Election
  announcements : BitVec 32

-- The container of `active_transactions`, ordered by the root.
abbrev ActiveRoots := Table Hash ConflictInfo

def announcementsPerInterval : Nat := 32

def contigiousAnnouncements : BitVec 32 := 4

def announceIntervalMs (network : Network) : Nat := if network = .test then 10 else 16000

inductive ActiveEffect where
  | broadcastWinner (root : Hash)
  | background (action : ElectionAction)
  | bootstrap
  | alarm (milliseconds : Nat)

-- The votes that the representatives of the wallets give to the last winner; `votes::vote` reads their account and block only.
def computeRepVotes (election : Election) (own : List Account) : Election :=
  { election with votes := own.foldl (fun votes account => (votes.vote ⟨account, 0, election.lastWinner, 0⟩).1) election.votes }

def electionStart (notAnAccount : Account) (block : Block) (own : List Account) : Election :=
  computeRepVotes ⟨.start notAnAccount block, block, false⟩ own

def activeStart (env : Env) (notAnAccount : Account) (s : Store) (block : Block) (own : List Account) (roots : ActiveRoots) :
    Except Fault (ActiveRoots × Bool) :=
  match roots.get block.root with
  | some _ => .ok (roots, true)
  | none => do
      ensure (blockExists s (block.hash env) = true)
      .ok (roots.put block.root ⟨electionStart notAnAccount block own, 0⟩, false)

structure Announcing where
  roots : ActiveRoots
  inactive : List Hash
  effects : List ActiveEffect

section Model

variable (env : Env) (inactiveSupply : Amount) (s : Store) (orders : (votes : Votes) → Orders s votes)

def confirmCutoff (election : Election) : Except Fault (Election × List ElectionAction) :=
  confirmOnce env inactiveSupply s election (orders election.votes)

def announceOne (state : Announcing) (row : Hash × ConflictInfo) : Except Fault Announcing :=
  let effects := state.effects ++ [.broadcastWinner row.1]
  if row.2.announcements ≥ contigiousAnnouncements - 1 then do
    let (election, actions) ← confirmCutoff env inactiveSupply s orders row.2.election
    .ok ⟨state.roots.put row.1 { row.2 with election := election }, state.inactive ++ [election.votes.id],
      effects ++ actions.map .background⟩
  else
    let announcements := row.2.announcements + 1
    .ok ⟨state.roots.put row.1 { row.2 with announcements := announcements }, state.inactive,
      if announcements > 1 ∧ row.2.election.votes.repVotes.size ≤ 1 then effects ++ [.bootstrap] else effects⟩

-- The first loop, with the rows that it leaves. What its body increases is another variable named `announcements`.
def announceFirst (announcements : Nat) :
    List (Hash × ConflictInfo) → Announcing → Except Fault (Announcing × List (Hash × ConflictInfo))
  | [], state => .ok (state, [])
  | row :: rows, state =>
      if announcements < announcementsPerInterval then do
        let state ← announceOne env inactiveSupply s orders state row
        announceFirst announcements rows state
      else .ok (state, row :: rows)

def resetRest (rows : List (Hash × ConflictInfo)) (roots : ActiveRoots) : ActiveRoots :=
  rows.foldl (fun roots row => roots.put row.1 { row.2 with announcements := 0 }) roots

def eraseInactive : List Hash → ActiveRoots → Except Fault ActiveRoots
  | [], roots => .ok roots
  | root :: inactive, roots => do
      ensure (roots.get root ≠ none)
      eraseInactive inactive (roots.del root)

def announceVotes (roots : ActiveRoots) : Except Fault (ActiveRoots × List ActiveEffect) := do
  let (state, rest) ← announceFirst env inactiveSupply s orders 0 roots.rows ⟨roots, [], []⟩
  let next ← eraseInactive state.inactive (resetRest rest state.roots)
  .ok (next, state.effects ++ [.alarm (announceIntervalMs env.network)])

def activeVote (table : Table Account Bytes) (cache : Table Account Vote) (vote : Vote) (roots : ActiveRoots) :
    Except Fault (ActiveRoots × List ElectionAction) :=
  match roots.get vote.block.root with
  | none => .ok (roots, [])
  | some info => do
      let (_, election, actions) ← electionVote env inactiveSupply s table cache info.election vote orders
      .ok (roots.put vote.block.root { info with election := election }, actions)

end Model

def broadcastWinner (root : Hash) (own : List Account) (roots : ActiveRoots) : ActiveRoots :=
  match roots.get root with
  | none => roots
  | some info => roots.put root { info with election := computeRepVotes info.election own }

inductive Elections (env : Env) (notAnAccount : Account) : ActiveRoots → Prop where
  | stopped : Elections env notAnAccount .empty
  | start (s : Store) (reached : Reachable env s) (block : Block) (own : List Account) (roots : ActiveRoots) (out : ActiveRoots × Bool)
      (running : Elections env notAnAccount roots) (returned : activeStart env notAnAccount s block own roots = .ok out) :
      Elections env notAnAccount out.1
  | vote (inactiveSupply : Amount) (s : Store) (reached : Reachable env s) (orders : (votes : Votes) → Orders s votes)
      (table : Table Account Bytes) (cache : Table Account Vote) (vote : Vote) (roots : ActiveRoots)
      (out : ActiveRoots × List ElectionAction)
      (running : Elections env notAnAccount roots)
      (returned : activeVote env inactiveSupply s orders table cache vote roots = .ok out) :
      Elections env notAnAccount out.1
  | broadcast (root : Hash) (own : List Account) (roots : ActiveRoots) (running : Elections env notAnAccount roots) :
      Elections env notAnAccount (broadcastWinner root own roots)
  | announce (inactiveSupply : Amount) (s : Store) (reached : Reachable env s) (orders : (votes : Votes) → Orders s votes)
    (roots : ActiveRoots)
      (out : ActiveRoots × List ActiveEffect) (running : Elections env notAnAccount roots)
      (returned : announceVotes env inactiveSupply s orders roots = .ok out) : Elections env notAnAccount out.1

structure Election.Sound (election : Election) (root : Hash) : Prop where
  named : election.votes.id = root
  recorded : ∃ block, Recorded election.votes block

def ActiveRoots.Sound (roots : ActiveRoots) : Prop := ∀ root info, roots.get root = some info → info.election.Sound root

theorem tally_some (s : Store) (votes : Votes) (orders : Orders s votes) (recorded : ∃ block, Recorded votes block) :
    ∃ entry, (ledgerTally s votes orders).head? = some entry := by
  obtain ⟨block, member⟩ := recorded
  obtain ⟨total, present⟩ := recorded_total s votes orders.voted orders.votedLists block member
  have listed := (orders.totalsLists.entries _ _).mpr present
  obtain ⟨entry, first, _⟩ := tally_winner orders.totals (List.ne_nil_of_mem listed)
  exact ⟨entry, first⟩

theorem confirm_once_votes (env : Env) (inactiveSupply : Amount) (s : Store) (election : Election) (orders : Orders s election.votes) :
    Settles (confirmOnce env inactiveSupply s election orders) (fun _ => ¬ ∃ block, Recorded election.votes block) fun out =>
      out.1.votes = election.votes := by
  refine settles_mono (confirm_once_settles env inactiveSupply s election orders) ?_
    (confirms_votes env inactiveSupply s election orders)
  intro _ none recorded
  obtain ⟨entry, present⟩ := tally_some s election.votes orders recorded
  rw [none] at present
  cases present

theorem vote_sound (votes : Votes) (vote : Vote) : (votes.vote vote).1.id = votes.id ∧ ∃ block, Recorded (votes.vote vote).1 block := by
  refine ⟨?_, vote.block, vote.account, vote_recorded votes vote⟩
  rw [vote_records]

theorem compute_rep_votes_sound (election : Election) (own : List Account) (root : Hash) (sound : election.Sound root) :
    (computeRepVotes election own).Sound root := by
  have kept : ∀ votes : Votes, votes.id = root ∧ (∃ block, Recorded votes block) →
      (own.foldl (fun votes account => (votes.vote ⟨account, 0, election.lastWinner, 0⟩).1) votes).id = root ∧
      ∃ block, Recorded (own.foldl (fun votes account => (votes.vote ⟨account, 0, election.lastWinner, 0⟩).1) votes) block := by
    induction own with
    | nil => exact fun _ held => held
    | cons account own ih =>
        intro votes held
        have voted := vote_sound votes ⟨account, 0, election.lastWinner, 0⟩
        exact ih _ ⟨voted.1.trans held.1, voted.2⟩
  have all := kept election.votes ⟨sound.named, sound.recorded⟩
  exact ⟨all.1, all.2⟩

theorem election_start_sound (notAnAccount : Account) (block : Block) (own : List Account) :
    (electionStart notAnAccount block own).Sound block.root :=
  compute_rep_votes_sound _ own block.root ⟨rfl, block, notAnAccount, Table.get_put_self _ _ _⟩

theorem sound_put (roots : ActiveRoots) (root : Hash) (info : ConflictInfo) (sound : roots.Sound) (new : info.election.Sound root) :
    ActiveRoots.Sound (roots.put root info) := by
  intro other held found
  by_cases same : other = root
  · rw [same, Table.get_put_self] at found
    rw [same, ← Option.some.inj found]
    exact new
  · rw [Table.get_put_ne _ _ _ _ same] at found
    exact sound other held found

def ConflictInfo.advanced (info : ConflictInfo) : Option ConflictInfo :=
  if info.announcements ≥ contigiousAnnouncements - 1 then none else some { info with announcements := info.announcements + 1 }

def broadcasts (effects : List ActiveEffect) : List Hash :=
  effects.filterMap fun effect =>
    match effect with
    | .broadcastWinner root => some root
    | _ => none

@[simp] theorem broadcasts_append (first second : List ActiveEffect) :
    broadcasts (first ++ second) = broadcasts first ++ broadcasts second :=
  List.filterMap_append

@[simp] theorem broadcasts_background (actions : List ElectionAction) : broadcasts (actions.map .background) = [] := by
  induction actions with
  | nil => rfl
  | cons action actions ih => exact ih

section Announcements

variable (env : Env) (inactiveSupply : Amount) (s : Store) (orders : (votes : Votes) → Orders s votes) (roots : ActiveRoots)
  (sound : roots.Sound)

def Due (roots : ActiveRoots) (root : Hash) : Bool :=
  (roots.get root).any fun info => decide (info.announcements ≥ contigiousAnnouncements - 1)

structure Announced (done : List Hash) (state : Announcing) : Prop where
  ahead : ∀ root, root ∉ done → state.roots.get root = roots.get root
  due : ∀ root, root ∈ done → Due roots root = true → state.roots.get root ≠ none
  counted : ∀ root, root ∈ done → Due roots root = false → state.roots.get root = (roots.get root).bind ConflictInfo.advanced
  inactive : state.inactive = done.filter (Due roots)
  told : broadcasts state.effects = done

theorem due_known (root : Hash) (info : ConflictInfo) (known : roots.get root = some info) :
    Due roots root = decide (info.announcements ≥ contigiousAnnouncements - 1) := by
  rw [Due, known]
  rfl

theorem announced_next (done : List Hash) (root : Hash) (new : ConflictInfo) (state : Announcing) (inactive : List Hash)
    (effects : List ActiveEffect) (announced : Announced roots done state)
    (counted : Due roots root = false → (roots.get root).bind ConflictInfo.advanced = some new)
    (added : inactive = state.inactive ++ [root].filter (Due roots)) (told : broadcasts effects = done ++ [root]) :
    Announced roots (done ++ [root]) ⟨state.roots.put root new, inactive, effects⟩ := by
  have elsewhere (other : Hash) (different : other ≠ root) : (state.roots.put root new).get other = state.roots.get other :=
    Table.get_put_ne _ _ _ _ different
  have here : (state.roots.put root new).get root = some new := Table.get_put_self _ _ _
  have earlier (other : Hash) (member : other ∈ done ++ [root]) (different : other ≠ root) : other ∈ done := by
    simpa [different] using member
  refine ⟨?_, ?_, ?_, ?_, told⟩
  · intro other unseen
    rw [List.mem_append, List.mem_singleton, not_or] at unseen
    exact (elsewhere other unseen.2).trans (announced.ahead other unseen.1)
  · intro other member due
    by_cases same : other = root
    · rw [same, here]
      exact Option.some_ne_none new
    · rw [elsewhere other same]
      exact announced.due other (earlier other member same) due
  · intro other member due
    by_cases same : other = root
    · rw [same, here, counted (same ▸ due)]
    · rw [elsewhere other same]
      exact announced.counted other (earlier other member same) due
  · rw [added, announced.inactive, List.filter_append]

include sound

theorem announce_one_settles (done : List Hash) (root : Hash) (info : ConflictInfo) (state : Announcing)
    (known : roots.get root = some info) (announced : Announced roots done state) :
    Settles (announceOne env inactiveSupply s orders state (root, info)) (fun _ => False) (Announced roots (done ++ [root])) := by
  have held := sound root info known
  have decided := due_known roots root info known
  have told : broadcasts (state.effects ++ [.broadcastWinner root]) = done ++ [root] := by
    rw [broadcasts_append, announced.told]
    rfl
  unfold announceOne
  dsimp only
  by_cases due : info.announcements ≥ contigiousAnnouncements - 1
  · rw [if_pos due]
    rw [decide_eq_true due] at decided
    refine settles_bind (settles_mono (confirm_once_votes env inactiveSupply s info.election (orders info.election.votes))
      (fun _ missing => missing held.recorded) fun _ => id) fun out same => ?_
    refine announced_next roots done root _ state _ _ announced (fun early => absurd (decided.symm.trans early) Bool.noConfusion) ?_ ?_
    · rw [same, held.named, List.filter_cons_of_pos decided, List.filter_nil]
    · rw [broadcasts_append, broadcasts_background, List.append_nil, told]
  · rw [if_neg due]
    rw [decide_eq_false due] at decided
    refine announced_next roots done root _ state _ _ announced (fun _ => ?_) ?_ ?_
    · rw [known, Option.bind_some, ConflictInfo.advanced, if_neg due]
    · rw [List.filter_cons_of_neg (by simp [decided]), List.filter_nil, List.append_nil]
    · split
      · rw [broadcasts_append, told]
        exact List.append_nil _
      · exact told

theorem announce_first_settles :
    Settles (announceFirst env inactiveSupply s orders 0 roots.rows ⟨roots, [], []⟩) (fun _ => False) fun out =>
    Announced roots (roots.rows.map Prod.fst) out.1 ∧ out.2 = [] := by
  have whole (rows : List (Hash × ConflictInfo)) (state : Announcing) : announceFirst env inactiveSupply s orders 0 rows state =
      rows.foldlM (announceOne env inactiveSupply s orders) state >>= fun state => .ok (state, []) := by
    induction rows generalizing state with
    | nil => rfl
    | cons row rows ih =>
        rw [announceFirst, if_pos (by decide), List.foldlM_cons, bind_assoc]
        exact congrArg _ (funext ih)
  rw [whole]
  have begun : Announced roots [] ⟨roots, [], []⟩ :=
    ⟨fun _ _ => rfl, fun _ member => absurd member List.not_mem_nil, fun _ member => absurd member List.not_mem_nil, rfl, rfl⟩
  refine settles_bind (Table.settles_rows roots (Announced roots) _ begun ?_) fun _ announced => ⟨announced, rfl⟩
  intro done root info state known _ announced
  exact announce_one_settles env inactiveSupply s orders roots sound done root info state known announced

end Announcements

theorem erase_settles (inactive : List Hash) (roots : ActiveRoots) (once : inactive.Nodup)
    (present : ∀ root ∈ inactive, roots.get root ≠ none) :
    Settles (eraseInactive inactive roots) (fun _ => False) fun next =>
      ∀ root, next.get root = if root ∈ inactive then none else roots.get root := by
  induction inactive generalizing roots with
  | nil => exact fun root => rfl
  | cons root inactive ih =>
      have apart := List.nodup_cons.mp once
      unfold eraseInactive
      rw [ensure, if_pos (present root List.mem_cons_self)]
      refine settles_mono (ih (roots.del root) apart.2 ?_) (fun _ => id) fun next erased other => ?_
      · intro other member
        have different : other ≠ root := fun same => apart.1 (same ▸ member)
        rw [Table.get_del_ne _ _ _ different]
        exact present other (List.mem_cons_of_mem root member)
      · rw [erased other]
        by_cases same : other = root
        · simp [same]
        · simp [same, Table.get_del_ne _ _ _ same]

theorem announce_votes_spec (env : Env) (inactiveSupply : Amount) (s : Store) (orders : (votes : Votes) → Orders s votes)
    (roots : ActiveRoots) (sound : roots.Sound) :
    ∃ next effects, announceVotes env inactiveSupply s orders roots = .ok (next, effects) ∧
      broadcasts effects = roots.rows.map Prod.fst ∧ ∀ root, next.get root = (roots.get root).bind ConflictInfo.advanced := by
  have settled : Settles (announceVotes env inactiveSupply s orders roots) (fun _ => False) fun out =>
      broadcasts out.2 = roots.rows.map Prod.fst ∧ ∀ root, out.1.get root = (roots.get root).bind ConflictInfo.advanced := by
    refine settles_bind (announce_first_settles env inactiveSupply s orders roots sound) fun out reached => ?_
    have announced := reached.1
    have listed := Table.mem_rows roots
    dsimp only
    rw [reached.2, announced.inactive]
    have present : ∀ root ∈ (roots.rows.map Prod.fst).filter (Due roots), out.1.roots.get root ≠ none := fun root member =>
      announced.due root (List.mem_filter.mp member).1 (List.mem_filter.mp member).2
    refine settles_bind (erase_settles _ out.1.roots (roots.lists_rows.once.filter _) present) fun next erased => ?_
    refine ⟨?_, fun root => ?_⟩
    · rw [broadcasts_append, announced.told]
      exact List.append_nil _
    · rw [erased root]
      cases known : roots.get root with
      | none =>
          have unlisted : root ∉ roots.rows.map Prod.fst := fun member => (listed root).mp member known
          rw [if_neg fun member => unlisted (List.mem_filter.mp member).1, announced.ahead root unlisted, known]
          rfl
      | some info =>
          have member := (listed root).mpr (known ▸ Option.some_ne_none info)
          cases due : Due roots root with
          | true =>
              have often := of_decide_eq_true ((due_known roots root info known).symm.trans due)
              rw [if_pos (List.mem_filter.mpr ⟨member, due⟩), Option.bind_some, ConflictInfo.advanced, if_pos often]
          | false =>
              rw [if_neg (by simp [due]), announced.counted root member due, known]
  obtain ⟨out, returned, told, left⟩ := settles_never settled fun _ => id
  exact ⟨out.1, out.2, returned, told, left⟩

theorem announced_sound (roots next : ActiveRoots) (sound : roots.Sound)
    (left : ∀ root, next.get root = (roots.get root).bind ConflictInfo.advanced) : next.Sound := by
  intro root info found
  rw [left root] at found
  obtain ⟨before, known, advanced⟩ := Option.bind_eq_some_iff.mp found
  unfold ConflictInfo.advanced at advanced
  split at advanced
  · cases advanced
  · rw [← Option.some.inj advanced]
    exact sound root before known

theorem election_vote_sound {env : Env} {inactiveSupply : Amount} {s : Store} {table : Table Account Bytes} {cache : Table Account Vote}
    {election : Election} {vote : Vote} (orders : (votes : Votes) → Orders s votes) {root : Hash}
    (out : Table Account Vote × Election × List ElectionAction) (sound : election.Sound root)
    (returned : electionVote env inactiveSupply s table cache election vote orders = .ok out) : out.2.1.Sound root := by
  have voted := vote_sound election.votes vote
  have held : ({ election with votes := (election.votes.vote vote).1 } : Election).Sound root := ⟨voted.1.trans sound.named, voted.2⟩
  obtain ⟨_, _, returned⟩ := bind_returned returned
  obtain ⟨counted, confirmed, returned⟩ := bind_returned returned
  rw [← Except.ok.inj returned]
  obtain ⟨quorum, _, confirmed⟩ := bind_returned confirmed
  split at confirmed
  · have same := settles_returned (confirm_once_votes env inactiveSupply s _ _) confirmed
    exact ⟨by rw [same]; exact held.named, by rw [same]; exact held.recorded⟩
  · rw [← Except.ok.inj confirmed]
    exact held

theorem elections_sound (env : Env) (notAnAccount : Account) (roots : ActiveRoots)
    (running : Elections env notAnAccount roots) : roots.Sound := by
  induction running with
  | stopped =>
      intro root info found
      rw [Table.get_empty] at found
      cases found
  | start s _ block own roots out _ returned ih =>
      unfold activeStart at returned
      split at returned
      · rw [← Except.ok.inj returned]
        exact ih
      · obtain ⟨_, _, rest⟩ := bind_returned returned
        rw [← Except.ok.inj rest]
        exact sound_put roots block.root _ ih (election_start_sound notAnAccount block own)
  | vote inactiveSupply s _ orders table cache vote roots out _ returned ih =>
      unfold activeVote at returned
      split at returned
      · rw [← Except.ok.inj returned]
        exact ih
      · next info found =>
          obtain ⟨⟨cache', election, actions⟩, voted, rest⟩ := bind_returned returned
          rw [← Except.ok.inj rest]
          have held := ih vote.block.root info found
          exact sound_put roots vote.block.root _ ih
            (election_vote_sound orders _ held voted)
  | broadcast root own roots _ ih =>
      unfold broadcastWinner
      split
      · exact ih
      · next info found => exact sound_put roots root _ ih (compute_rep_votes_sound info.election own root (ih root info found))
  | announce inactiveSupply s _ orders roots out _ returned ih =>
      obtain ⟨next, effects, answered, _, left⟩ := announce_votes_spec env inactiveSupply s orders roots ih
      rw [← Except.ok.inj (answered.symm.trans returned)]
      exact announced_sound roots next ih left

-- The broadcasts of a call go to the lowest roots, as many as an interval allows, and the counters of the other elections are zero.
def RateLimited (roots next : ActiveRoots) (effects : List ActiveEffect) : Prop :=
  broadcasts effects = (roots.rows.map Prod.fst).take announcementsPerInterval ∧
    ∀ root info, next.get root = some info → root ∉ broadcasts effects → info.announcements = 0

theorem announcements_limited_iff (env : Env) (notAnAccount : Account) (roots : ActiveRoots)
    (running : Elections env notAnAccount roots) (inactiveSupply : Amount) (s : Store) (orders : (votes : Votes) → Orders s votes) :
    (∃ next effects, announceVotes env inactiveSupply s orders roots = .ok (next, effects) ∧ RateLimited roots next effects) ↔
      roots.size ≤ announcementsPerInterval := by
  obtain ⟨next, effects, returned, told, left⟩ := announce_votes_spec env inactiveSupply s orders roots
    (elections_sound env notAnAccount roots running)
  have count : (roots.rows.map Prod.fst).length = roots.size := by rw [List.length_map, Table.rows_length]
  constructor
  · rintro ⟨next', effects', answered, limited, _⟩
    obtain ⟨_, rfl⟩ := Prod.mk.inj (Except.ok.inj (returned.symm.trans answered))
    rw [told] at limited
    have short := congrArg List.length limited
    rw [List.length_take, count] at short
    omega
  · intro few
    refine ⟨next, effects, returned, ?_, fun root info found untold => ?_⟩
    · rw [told, List.take_of_length_le (count.trans_le few)]
    · rw [left root] at found
      obtain ⟨before, known, _⟩ := Option.bind_eq_some_iff.mp found
      rw [told, Table.mem_rows, known] at untold
      exact absurd (Option.some_ne_none before) untold

def startAll (s : Store) : List Block → ActiveRoots → Except Fault ActiveRoots
  | [], roots => .ok roots
  | block :: blocks, roots => do
      let (roots, _) ← activeStart sampleEnv (sampleKey 9) s block [] roots
      startAll s blocks roots

theorem start_all_running (s : Store) (reached : Reachable sampleEnv s) (blocks : List Block) (roots next : ActiveRoots)
    (running : Elections sampleEnv (sampleKey 9) roots) (returned : startAll s blocks roots = .ok next) :
    Elections sampleEnv (sampleKey 9) next := by
  induction blocks generalizing roots with
  | nil => exact Except.ok.inj returned ▸ running
  | cons block blocks ih =>
      obtain ⟨out, started, rest⟩ := bind_returned returned
      exact ih out.1 (.start s reached block [] roots out running started) rest

theorem start_all_fresh (s : Store) (blocks : List Block) (roots : ActiveRoots)
    (stored : ∀ block ∈ blocks, blockExists s (block.hash sampleEnv) = true) (distinct : (blocks.map Block.root).Nodup)
    (idle : ∀ block ∈ blocks, roots.get block.root = none) :
    ∃ next, startAll s blocks roots = .ok next ∧ next.size = roots.size + blocks.length := by
  induction blocks generalizing roots with
  | nil => exact ⟨roots, rfl, rfl⟩
  | cons block blocks ih =>
      rw [List.map_cons, List.nodup_cons] at distinct
      have absent := idle block (by simp)
      let election : ConflictInfo := ⟨electionStart (sampleKey 9) block [], 0⟩
      have started : activeStart sampleEnv (sampleKey 9) s block [] roots = .ok (roots.put block.root election, false) := by
        unfold activeStart
        rw [absent]
        simp only [stored block (by simp), ensure_true]
        rfl
      obtain ⟨next, returned, size⟩ := ih (roots.put block.root election) (fun b member => stored b (by simp [member])) distinct.2 (by
        intro b member
        have different : b.root ≠ block.root := fun same => distinct.1 (same ▸ List.mem_map_of_mem member)
        rw [Table.get_put_ne _ _ _ _ different]
        exact idle b (by simp [member]))
      refine ⟨next, ?_, ?_⟩
      · rw [startAll, started]
        exact returned
      · rw [size, Table.size_put _ _ _ absent, List.length_cons]
        omega

theorem start_all_replayed (log : List Block) (s : Store) (legacy : ∀ block ∈ log, block.kind ≠ .sendBlockV2)
    (replay : Replay sampleEnv log s) (distinct : (log.map Block.root).Nodup) :
    ∃ roots, Elections sampleEnv (sampleKey 9) roots ∧ roots.size = log.length := by
  have stored := replay_stored log s legacy replay
  obtain ⟨roots, returned, size⟩ := start_all_fresh s log .empty stored distinct fun _ _ => Table.get_empty _
  have empty : (Table.empty : ActiveRoots).size = 0 := rfl
  rw [empty, Nat.zero_add] at size
  exact ⟨roots, start_all_running s (replay_reachable replay) log .empty roots .stopped returned, size⟩

theorem announcements_limited_sample :
    ∃ s roots, Replay sampleEnv sampleLog s ∧ Elections sampleEnv (sampleKey 9) roots ∧ roots.size = 5 ∧
    ∀ orders, ∃ next effects, announceVotes sampleEnv 0 s orders roots = .ok (next, effects) ∧ RateLimited roots next effects := by
  obtain ⟨s, replay⟩ := sample_replayed
  obtain ⟨roots, running, size⟩ := start_all_replayed sampleLog s (by decide) replay (by decide +kernel)
  refine ⟨s, roots, replay, running, size, fun orders => ?_⟩
  exact (announcements_limited_iff sampleEnv (sampleKey 9) roots running 0 s orders).mpr (size.trans_le (by decide))

def sendChain : Nat → Hash → List Block
  | 0, _ => []
  | count + 1, previous =>
      let block : Block := ⟨.sendBlock previous (sampleKey 1) (BitVec.ofNat 128 count), 0, 0⟩
      block :: sendChain count (block.hash sampleEnv)

-- `h` is the last block of the only chain there is, and `seen` are the blocks before it.
structure LastOfChain (L : Lattice) (h : Hash) (n : Note) (seen : List Hash) : Prop where
  stored : L.get h = some n
  owner : n.account = genesisAccount sampleEnv.network
  last : h ∉ 0 :: seen
  only : ∀ k m, L.get k = some m → k ∈ h :: seen ∧ m.block.previous ∈ 0 :: seen

theorem last_of_genesis : LastOfChain (genesisLattice sampleEnv (genesisStamp sampleEnv.network)) (genesisHash sampleEnv)
    (genesisNote sampleEnv (genesisStamp sampleEnv.network)) [] where
  stored := Table.get_put_self _ _ _
  owner := rfl
  last := by
    rw [List.mem_singleton]
    exact HashesApart.zero _
  only k m stored := by
    obtain ⟨rfl, rfl⟩ := genesis_stored _ stored
    exact ⟨List.mem_cons_self, List.mem_cons_self⟩

section SendChain

variable {L : Lattice} {h : Hash} {n : Note} {seen : List Hash} (last : LastOfChain L h n seen) (block : Block) (destination : Account)
  (balance : Amount) (sends : block.hashables = .sendBlock h destination balance) (fresh : block.hash sampleEnv ∉ h :: seen)
include last sends fresh

theorem send_attaches (affordable : balance ≤ n.balance) (unsigned : block.signature = 0) :
    Attach sampleEnv L (block.hash sampleEnv) (n.follow block balance (n.balance - balance)) where
  fresh := by
    cases found : L.get (block.hash sampleEnv) with
    | none => rfl
    | some m => exact absurd (last.only _ m found).1 fresh
  hashed := rfl
  entry := by
    unfold Entry
    simp only [Note.follow, sends]
    exact ⟨n, last.stored, affordable, rfl⟩
  signed := by
    simp only [Note.follow, unsigned]
    exact sample_signed _ _ (Or.inl last.owner)
  latest k m stored _ same := by
    have previous : block.previous = h := by simp only [Block.previous, sends]
    exact last.last (previous ▸ same ▸ (last.only k m stored).2)
  unspent k m _ source := by
    refine absurd ?_ source
    simp only [Note.follow, Block.source, sends]

theorem last_of_send : LastOfChain (L.put (block.hash sampleEnv) (n.follow block balance (n.balance - balance))) (block.hash sampleEnv)
    (n.follow block balance (n.balance - balance)) (h :: seen) where
  stored := Table.get_put_self _ _ _
  owner := last.owner
  last := List.not_mem_cons_of_ne_of_not_mem (HashesApart.zero block) fresh
  only k m stored := by
    obtain ⟨rfl, rfl⟩ | stored := Table.put_some _ _ _ _ _ stored
    · simp [Note.follow, Block.previous, sends]
    · obtain ⟨known, previous⟩ := last.only k m stored
      exact ⟨List.mem_cons_of_mem _ known, by
        rw [List.mem_cons] at previous ⊢
        exact previous.imp_right (List.mem_cons_of_mem _)⟩

end SendChain

theorem send_chain_builds (count : Nat) (log : List Block) (L : Lattice) (h : Hash) (n : Note) (seen : List Hash)
    (built : Builds sampleEnv log L) (last : LastOfChain L h n seen) (affordable : count ≤ n.balance.toNat + 1)
    (distinct : (h :: (sendChain count h).map (Block.hash sampleEnv)).Nodup)
    (fresh : ∀ block ∈ sendChain count h, block.hash sampleEnv ∉ seen) : ∃ M, Builds sampleEnv (log ++ sendChain count h) M := by
  induction count generalizing log L h n seen with
  | zero => exact ⟨L, by rwa [sendChain, List.append_nil]⟩
  | succ count ih =>
      let block : Block := ⟨.sendBlock h (sampleKey 1) (BitVec.ofNat 128 count), 0, 0⟩
      have chain : sendChain (count + 1) h = block :: sendChain count (block.hash sampleEnv) := rfl
      rw [chain] at distinct fresh ⊢
      rw [List.nodup_cons] at distinct
      have unseen : ∀ later ∈ block :: sendChain count (block.hash sampleEnv), later.hash sampleEnv ∉ h :: seen := by
        intro later member
        refine List.not_mem_cons_of_ne_of_not_mem (fun same => ?_) (fresh later member)
        exact distinct.1 (List.mem_map.mpr ⟨later, member, same⟩)
      have new := unseen block List.mem_cons_self
      have whole : (BitVec.ofNat 128 count).toNat = count := by
        have bound := n.balance.isLt
        rw [BitVec.toNat_ofNat]
        omega
      have attach := send_attaches last block _ _ rfl new (BitVec.le_def.mpr (by omega)) rfl
      have grown := Builds.grow log L _ _ built attach
      rw [List.append_cons]
      exact ih _ _ _ _ (h :: seen) grown (last_of_send last block _ _ rfl new) (whole.symm.le.trans (Nat.le_succ _)) distinct.2
        fun later member => unseen later (List.mem_cons_of_mem _ member)

theorem send_chain_roots (count : Nat) (h : Hash) :
    ((sendChain count h).map Block.root).Sublist (h :: (sendChain count h).map (Block.hash sampleEnv)) := by
  induction count generalizing h with
  | zero => exact List.nil_sublist _
  | succ count ih => exact (ih _).cons_cons h

theorem send_chain_legacy (count : Nat) (h : Hash) : ∀ block ∈ sendChain count h, block.kind ≠ .sendBlockV2 := by
  induction count generalizing h with
  | zero => exact fun block member => absurd member List.not_mem_nil
  | succ count ih =>
      intro block member
      obtain rfl | older := List.mem_cons.mp member
      · exact Kind.noConfusion
      · exact ih _ block older

theorem flood_announced : ∃ s roots, Replay sampleEnv (sendChain 33 (genesisHash sampleEnv)) s ∧
    Elections sampleEnv (sampleKey 9) roots ∧
    ∀ orders, ∃ next effects, announceVotes sampleEnv 0 s orders roots = .ok (next, effects) ∧ (broadcasts effects).length = 33 := by
  have legacy := send_chain_legacy 33 (genesisHash sampleEnv)
  have distinct : (genesisHash sampleEnv :: (sendChain 33 (genesisHash sampleEnv)).map (Block.hash sampleEnv)).Nodup := by
    decide +kernel
  obtain ⟨L, built⟩ := send_chain_builds 33 [] _ _ _ [] .genesis last_of_genesis (by decide) distinct fun _ _ => List.not_mem_nil
  obtain ⟨s, replay, _⟩ := builds_replay _ L legacy built
  obtain ⟨roots, running, size⟩ := start_all_replayed _ s legacy replay (distinct.sublist (send_chain_roots 33 _))
  refine ⟨s, roots, replay, running, fun orders => ?_⟩
  obtain ⟨next, effects, returned, told, _⟩ := announce_votes_spec sampleEnv 0 s orders roots (elections_sound _ _ roots running)
  refine ⟨next, effects, returned, ?_⟩
  rw [told, List.length_map, Table.rows_length, size]
  rfl

end Rai
