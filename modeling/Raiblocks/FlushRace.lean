import Raiblocks.Deliveries

set_option autoImplicit false

namespace Rai

open Kit

-- A flush swaps the cache out, writes it in its transaction and commits. There is one writer at a time.
inductive FlushPhase where
  | idle
  | swapped (taken : Table Account Vote)
  | written (taken : Table Account Vote) (table : Table Account Bytes)

def FlushPhase.taken : FlushPhase → Table Account Vote
  | .idle => .empty
  | .swapped taken => taken
  | .written taken _ => taken

inductive VoteEvent where
  | accepted (vote : Vote)
  | generated (vote : Vote)

def VoteEvent.vote : VoteEvent → Vote
  | .accepted vote => vote
  | .generated vote => vote

structure Shared where
  voteCache : Table Account Vote
  phase : FlushPhase
  latest : Table Account Bytes
  earlier : List (Table Account Bytes)
  events : List VoteEvent

inductive SharedAction where
  | validate (snapshot : Table Account Bytes) (vote : Vote)
  | generate (snapshot : Table Account Bytes) (account : Account) (key : Hash → Signature) (block : Block)
  | swap
  | write (order : List (Account × Vote))
  | commit

-- A call holds the mutex of the cache. Its transaction may have begun long before, and then it reads an earlier table.
inductive SharedStep (env : Env) : Shared → SharedAction → Shared → Prop where
  | validate (s : Shared) (snapshot : Table Account Bytes) (vote : Vote) (out : Table Account Vote × VoteResult)
      (seen : snapshot ∈ s.latest :: s.earlier) (returned : voteValidate env snapshot s.voteCache vote = .ok out) :
      SharedStep env s (.validate snapshot vote)
        { s with voteCache := out.1, events := s.events ++ if out.2.code = .vote then [.accepted vote] else [] }
  | generate (s : Shared) (snapshot : Table Account Bytes) (account : Account) (key : Hash → Signature) (block : Block)
      (out : Table Account Vote × Vote) (seen : snapshot ∈ s.latest :: s.earlier)
      (returned : voteGenerate env snapshot s.voteCache account key block = .ok out) :
      SharedStep env s (.generate snapshot account key block) { s with voteCache := out.1, events := s.events ++ [.generated out.2] }
  | swap (s : Shared) (idle : s.phase = .idle) : SharedStep env s .swap { s with voteCache := .empty, phase := .swapped s.voteCache }
  | write (s : Shared) (taken : Table Account Vote) (order : List (Account × Vote)) (swapped : s.phase = .swapped taken)
      (lists : taken.Lists order) : SharedStep env s (.write order) { s with phase := .written taken (writeVotes s.latest order) }
  | commit (s : Shared) (taken : Table Account Vote) (table : Table Account Bytes) (written : s.phase = .written taken table) :
      SharedStep env s .commit { s with phase := .idle, latest := table, earlier := s.latest :: s.earlier }

def NeverBack (events : List VoteEvent) : Prop :=
  events.Pairwise fun a b => a.vote.account = b.vote.account →
    (∀ v w, a = .generated v → b = .generated w → v.sequence ≠ w.sequence) ∧ ∀ w, b = .accepted w → a.vote.sequence ≤ w.sequence

namespace Shared

def Finds (s : Shared) (snapshot : Table Account Bytes) (account : Account) : Prop :=
  s.voteCache.get account ≠ none ∨ (s.phase.taken.get account = none ∧ snapshot.get account = s.latest.get account)

def Meets (env : Env) (s : Shared) : SharedAction → Prop
  | .validate snapshot vote => Signed env vote → s.Finds snapshot vote.account
  | .generate snapshot account _ _ => s.Finds snapshot account
  | _ => True

def newest (s : Shared) (account : Account) : WithBot (BitVec 64) :=
  sequenceOf ((s.voteCache.get account).or ((s.phase.taken.get account).or ((s.latest.get account).bind Vote.deserialize)))

theorem finds_newest (s : Shared) {snapshot : Table Account Bytes} {account : Account} (finds : s.Finds snapshot account) :
    heldSequence snapshot s.voteCache account = s.newest account := by
  unfold heldSequence newest
  cases cached : s.voteCache.get account with
  | some vote => rfl
  | none =>
      obtain present | ⟨untaken, same⟩ := finds
      · exact absurd cached present
      · rw [untaken, same]
        rfl

theorem newest_put (s : Shared) (account : Account) (vote : Vote) (events : List VoteEvent) :
    ({ s with voteCache := s.voteCache.put account vote, events := events } : Shared).newest =
      Function.update s.newest account vote.sequence := by
  funext query
  unfold newest
  rw [Table.get_put]
  by_cases own : query = account
  · subst own
    rw [if_pos rfl, Function.update_self]
    rfl
  · rw [if_neg own, Function.update_of_ne own]

-- Sequence numbers stay below 2^64 - 1, so that the next one is larger.
structure Sound (s : Shared) : Prop where
  wrote : ∀ taken table, s.phase = .written taken table → ∃ order, taken.Lists order ∧ table = writeVotes s.latest order
  covers : ∀ event ∈ s.events, event.vote.sequence ≤ s.newest event.vote.account
  inRange : ∀ account, s.newest account < BitVec.allOnes 64
  neverBack : NeverBack s.events

section Steps

variable {s t : Shared} (sound : s.Sound)

include sound

theorem sound_quiet (wrote : ∀ taken table, t.phase = .written taken table → ∃ order, taken.Lists order ∧
    table = writeVotes t.latest order)
    (newest : t.newest = s.newest) (events : t.events = s.events) : t.Sound := by
  refine ⟨wrote, ?_, ?_, ?_⟩
  · rw [newest, events]
    exact sound.covers
  · rw [newest]
    exact sound.inRange
  · rw [events]
    exact sound.neverBack

theorem sound_event (event : VoteEvent) (phase : t.phase = s.phase) (latest : t.latest = s.latest)
    (events : t.events = s.events ++ [event]) (newest : t.newest = Function.update s.newest event.vote.account event.vote.sequence)
    (above : s.newest event.vote.account ≤ event.vote.sequence)
    (strict : ∀ vote, event = .generated vote → s.newest vote.account < vote.sequence)
    (small : event.vote.sequence < BitVec.allOnes 64) : t.Sound := by
  have behind : ∀ other ∈ s.events, other.vote.account = event.vote.account → other.vote.sequence ≤ s.newest event.vote.account := by
    intro other member owner
    rw [← owner]
    exact sound.covers other member
  refine ⟨?_, ?_, ?_, ?_⟩
  · rw [phase, latest]
    exact sound.wrote
  · intro other member
    rw [events, List.mem_append, List.mem_singleton] at member
    rw [newest]
    obtain old | rfl := member
    · by_cases owner : other.vote.account = event.vote.account
      · rw [owner, Function.update_self]
        exact le_trans (behind other old owner) above
      · rw [Function.update_of_ne owner]
        exact sound.covers other old
    · rw [Function.update_self]
  · intro account
    rw [newest]
    by_cases own : account = event.vote.account
    · rw [own, Function.update_self]
      exact WithBot.coe_lt_coe.mpr small
    · rw [Function.update_of_ne own]
      exact sound.inRange account
  · rw [events]
    refine List.pairwise_append.mpr ⟨sound.neverBack, List.pairwise_singleton _ _, ?_⟩
    rintro other old _ last owner
    obtain rfl := List.mem_singleton.mp last
    have reached := behind other old owner
    refine ⟨?_, ?_⟩
    · rintro v w rfl rfl
      exact ne_of_lt (WithBot.coe_lt_coe.mp (lt_of_le_of_lt reached (strict w rfl)))
    · rintro w rfl
      exact WithBot.coe_le_coe.mp (le_trans reached above)

end Steps

theorem commit_newest (s : Shared) (taken : Table Account Vote) (order : List (Account × Vote)) (lists : taken.Lists order)
    (written : s.phase = .written taken (writeVotes s.latest order)) :
    ({ s with phase := .idle, latest := writeVotes s.latest order, earlier := s.latest :: s.earlier } : Shared).newest = s.newest := by
  funext account
  have moved : heldSequence (writeVotes s.latest order) .empty account = heldSequence s.latest taken account :=
    congrFun (flush_held order lists) account
  unfold heldSequence at moved
  rw [Table.get_empty] at moved
  unfold newest
  rw [written]
  cases s.voteCache.get account with
  | some vote => rfl
  | none => exact moved

theorem next_above (current : Option Vote) (small : sequenceOf current < BitVec.allOnes 64) :
    sequenceOf current < ((current.map Vote.sequence).getD 0 + 1 : BitVec 64) := by
  cases current with
  | none => exact WithBot.bot_lt_coe _
  | some vote =>
      have less : vote.sequence < BitVec.allOnes 64 := WithBot.coe_lt_coe.mp small
      refine WithBot.coe_lt_coe.mpr ?_
      rw [Option.map_some, Option.getD_some]
      bv_omega

theorem step_sound {env : Env} {s t : Shared} {action : SharedAction} (sound : s.Sound) (meets : s.Meets env action)
    (step : SharedStep env s action t) (small : ∀ event ∈ t.events, event.vote.sequence < BitVec.allOnes 64) : t.Sound := by
  cases step with
  | validate snapshot vote out _ returned =>
      obtain ⟨_, rfl⟩ | validated := settles_returned (validate_settles vote) returned
      · exact sound_quiet sound sound.wrote rfl (List.append_nil _)
      · obtain ⟨kept, put, value⟩ := validated.kept
        rw [finds_newest s (meets validated.signed)] at value
        have accepts := validated.accepts
        rw [finds_newest s (meets validated.signed)] at accepts
        rw [put]
        by_cases code : out.2.code = .vote
        · have above := accepts.mp code
          rw [if_pos code] at small ⊢
          refine sound_event sound (.accepted vote) rfl rfl rfl ?_ above (fun _ same => nomatch same) (small _ (by simp))
          rw [newest_put, value, max_eq_right above]
          rfl
        · have below : vote.sequence ≤ s.newest vote.account := le_of_not_ge fun above => code (accepts.mpr above)
          rw [if_neg code]
          refine sound_quiet sound sound.wrote ?_ (List.append_nil _)
          rw [newest_put, value, max_eq_left below, Function.update_eq_self]
  | generate snapshot account key block out _ returned =>
      obtain ⟨put, owner, current, held, next⟩ := settles_returned (generate_settles account key block) returned
      rw [finds_newest s meets] at held
      have above : s.newest account < out.2.sequence := by
        rw [next, held]
        exact next_above current (held ▸ sound.inRange account)
      rw [← owner] at above
      rw [put]
      refine sound_event sound (.generated out.2) rfl rfl rfl ?_ (le_of_lt above) ?_ (small _ (by simp))
      · rw [newest_put, ← owner]
        rfl
      · rintro vote ⟨⟩
        exact above
  | swap idle =>
      refine sound_quiet sound (fun _ _ written => nomatch written) ?_ rfl
      funext account
      unfold newest
      rw [idle]
      rfl
  | write taken order swapped lists =>
      refine sound_quiet sound ?_ ?_ rfl
      · rintro _ _ ⟨⟩
        exact ⟨order, lists, rfl⟩
      · unfold newest
        rw [swapped]
        rfl
  | commit taken table written =>
      obtain ⟨order, lists, rfl⟩ := sound.wrote taken table written
      exact sound_quiet sound (fun _ _ written => nomatch written) (commit_newest s taken order lists written) rfl

theorem step_events {env : Env} {s t : Shared} {action : SharedAction} (step : SharedStep env s action t) :
    ∀ event ∈ s.events, event ∈ t.events := by
  intro event member
  cases step with
  | validate => exact List.mem_append_left _ member
  | generate => exact List.mem_append_left _ member
  | _ => exact member

end Shared

-- As long as every call finds the newest vote of its account, no sequence number goes back.
theorem sequences_never_back (env : Env) (start t : Shared) (idle : start.phase = .idle) (unused : start.events = [])
    (held : ∀ account, start.newest account < BitVec.allOnes 64) (path : Trail (SharedStep env) (Shared.Meets env) start t)
    (inRange : ∀ event ∈ t.events, event.vote.sequence < BitVec.allOnes 64) : NeverBack t.events := by
  have sound : (∀ event ∈ t.events, event.vote.sequence < BitVec.allOnes 64) → t.Sound := by
    refine trail_invariant (SharedStep env) (Shared.Meets env)
      (fun s => (∀ event ∈ s.events, event.vote.sequence < BitVec.allOnes 64) → s.Sound) ?_ ?_ path
    · intro _
      refine ⟨fun taken table written => ?_, ?_, held, ?_⟩
      · rw [idle] at written
        cases written
      · rw [unused]
        exact fun _ member => absurd member List.not_mem_nil
      · rw [unused]
        exact List.Pairwise.nil
    · intro s action t sound meets step small
      exact Shared.step_sound (sound fun event member => small event (Shared.step_events step event member)) meets step small
  exact (sound inRange).neverBack

section Sample

variable (env : Env) (table : Table Account Bytes) (cache : Table Account Vote) (account : Account)

theorem generate_unknown (key : Hash → Signature) (block : Block) (uncached : cache.get account = none)
    (unstored : table.get account = none) :
    voteGenerate env table cache account key block = .ok (cache.put account ⟨account, 1, block, key (voteDigest env block 1)⟩,
      ⟨account, 1, block, key (voteDigest env block 1)⟩) := by
  simp [voteGenerate, voteCurrent, voteGet, uncached, unstored]

theorem generate_cached (key : Hash → Signature) (block : Block) (vote : Vote) (cached : cache.get account = some vote) :
    voteGenerate env table cache account key block =
      .ok (cache.put account ⟨account, vote.sequence + 1, block, key (voteDigest env block (vote.sequence + 1))⟩,
        ⟨account, vote.sequence + 1, block, key (voteDigest env block (vote.sequence + 1))⟩) := by
  simp [voteGenerate, voteCurrent, cached]

theorem validate_unknown (vote : Vote) (signed : Signed env vote) (uncached : cache.get vote.account = none)
    (unstored : table.get vote.account = none) :
    voteValidate env table cache vote = .ok (cache.put vote.account vote, ⟨.vote, some vote⟩) := by
  have good : env.validateMessage vote.account (vote.hash env) vote.signature = false := signed
  simp [voteValidate, voteMax, voteCurrent, voteGet, good, uncached, unstored]

end Sample

def sampleShared : Shared := ⟨.empty, .idle, .empty, [], []⟩

-- While the votes of one account are being written, another one gets its first number.
theorem sequences_never_back_sample : ∃ t, Trail (SharedStep sampleEnv) (Shared.Meets sampleEnv) sampleShared t ∧ t.phase ≠ .idle ∧
    t.events.map (fun event => (event.vote.account, event.vote.sequence)) = [(sampleKey 3, 1), (sampleKey 4, 1)] ∧
    NeverBack t.events := by
  have first := generate_unknown sampleEnv .empty .empty (sampleKey 3) (fun _ => 0) sampleSend (Table.get_empty _) (Table.get_empty _)
  have second := generate_unknown sampleEnv .empty .empty (sampleKey 4) (fun _ => 0) sampleSend (Table.get_empty _) (Table.get_empty _)
  have other : sampleKey 4 ≠ sampleKey 3 := by decide
  have path : Trail (SharedStep sampleEnv) (Shared.Meets sampleEnv) sampleShared sampleShared := .start
  have path := path.step _ (SharedAction.generate .empty (sampleKey 3) (fun _ => 0) sampleSend) _ (Or.inr ⟨Table.get_empty _, rfl⟩)
    (.generate _ _ _ _ _ _ List.mem_cons_self first)
  have path := path.step _ SharedAction.swap _ trivial (.swap _ rfl)
  have path := path.step _ (SharedAction.generate .empty (sampleKey 4) (fun _ => 0) sampleSend) _
    (Or.inr ⟨by rw [FlushPhase.taken, Table.get_put_ne _ _ _ _ other]; exact Table.get_empty _, rfl⟩)
    (.generate _ _ _ _ _ _ List.mem_cons_self second)
  refine ⟨_, path, ?_, rfl, ?_⟩
  · intro idle
    cases idle
  · exact sequences_never_back sampleEnv sampleShared _ rfl rfl (fun account => WithBot.bot_lt_coe _) path (by decide)

-- Once the cache is swapped out, an old vote is accepted and a number is given out again.
theorem swapped_votes_forgotten : ∃ t, Trail (SharedStep sampleEnv) (fun _ _ => True) sampleShared t ∧
    t.events = [.generated (sampleVote 1), .generated (sampleVote 2), .accepted (sampleVote 1), .generated (sampleVote 2)] ∧
    ¬ NeverBack t.events := by
  have first := generate_unknown sampleEnv .empty .empty (sampleKey 3) (fun _ => 0) sampleSend (Table.get_empty _) (Table.get_empty _)
  have second := generate_cached sampleEnv .empty (Table.empty.put (sampleKey 3) (sampleVote 1)) (sampleKey 3) (fun _ => 0) sampleSend
    (sampleVote 1) (Table.get_put_self _ _ _)
  have third := validate_unknown sampleEnv .empty .empty (sampleVote 1) (by decide +kernel) (Table.get_empty _) (Table.get_empty _)
  have path : Trail (SharedStep sampleEnv) (fun _ _ => True) sampleShared sampleShared := .start
  have path := path.step _ (SharedAction.generate .empty (sampleKey 3) (fun _ => 0) sampleSend) _ trivial
    (.generate _ _ _ _ _ _ List.mem_cons_self first)
  have path := path.step _ (SharedAction.generate .empty (sampleKey 3) (fun _ => 0) sampleSend) _ trivial
    (.generate _ _ _ _ _ _ List.mem_cons_self second)
  have path := path.step _ SharedAction.swap _ trivial (.swap _ rfl)
  have path := path.step _ (SharedAction.validate .empty (sampleVote 1)) _ trivial (.validate _ _ _ _ List.mem_cons_self third)
  have path := path.step _ (SharedAction.generate .empty (sampleKey 3) (fun _ => 0) sampleSend) _ trivial
    (.generate _ _ _ _ _ _ List.mem_cons_self second)
  refine ⟨_, path, rfl, fun forward => ?_⟩
  have twice := (List.pairwise_cons.mp (List.pairwise_cons.mp forward).2).1 (.generated (sampleVote 2))
    (List.mem_cons_of_mem _ List.mem_cons_self) rfl
  exact twice.1 _ _ rfl rfl rfl

end Rai
