import Raiblocks.Deliveries
import Raiblocks.Tally

set_option autoImplicit false

namespace Rai

open Kit

-- A running election, the accepted votes that wait for their observers, and what has been accepted and recorded so far.
structure Race where
  voteCache : Table Account Vote
  election : Election
  waiting : List Vote
  accepted : List Vote
  recorded : List Vote

inductive CallStep where
  | validate (vote : Vote)
  | observe (vote : Vote)

-- The two steps of a call. The election is only given the votes for its root; another election may validate the vote again.
inductive RaceStep (env : Env) (inactiveSupply : Amount) (table : Table Account Bytes) : Race → CallStep → Race → Prop where
  | accept (s : Race) (vote : Vote) (out : Table Account Vote × VoteResult)
      (returned : voteValidate env table s.voteCache vote = .ok out) (code : out.2.code = .vote) :
      RaceStep env inactiveSupply table s (.validate vote)
        { s with voteCache := out.1, waiting := vote :: s.waiting, accepted := vote :: s.accepted }
  | refuse (s : Race) (vote : Vote) (out : Table Account Vote × VoteResult)
      (returned : voteValidate env table s.voteCache vote = .ok out) (code : out.2.code ≠ .vote) :
      RaceStep env inactiveSupply table s (.validate vote) { s with voteCache := out.1 }
  | record (s : Race) (vote : Vote) (ledger : Store) (orders : (votes : Votes) → Orders ledger votes)
      (out : Table Account Vote × Election × List ElectionAction) (waits : vote ∈ s.waiting)
      (own : vote.block.root = s.election.votes.id)
      (returned : electionVote env inactiveSupply ledger table s.voteCache s.election vote orders = .ok out) :
      RaceStep env inactiveSupply table s (.observe vote)
        { s with voteCache := out.1, election := out.2.1, waiting := s.waiting.erase vote, recorded := vote :: s.recorded }
  | ignore (s : Race) (vote : Vote) (waits : vote ∈ s.waiting) (other : vote.block.root ≠ s.election.votes.id) :
      RaceStep env inactiveSupply table s (.observe vote) { s with waiting := s.waiting.erase vote }
  | elsewhere (s : Race) (vote : Vote) (cache : Table Account Vote) (waits : vote ∈ s.waiting)
      (other : vote.block.root ≠ s.election.votes.id) (returned : electionValidates env table s.voteCache vote = .ok cache) :
      RaceStep env inactiveSupply table s (.observe vote) { s with voteCache := cache, waiting := s.waiting.erase vote }

namespace Race

def InOrder (s : Race) : CallStep → Prop
  | .validate _ => True
  | .observe vote => vote.block.root = s.election.votes.id → ∀ newer ∈ s.recorded, newer.account = vote.account →
    newer.sequence ≤ vote.sequence

def HoldsNewest (s : Race) (account : Account) : Prop :=
  ∃ vote ∈ s.accepted, vote.account = account ∧ vote.block.root = s.election.votes.id ∧
    s.election.votes.repVotes.get account = some vote.block ∧
    ∀ other ∈ s.accepted, other.account = account → other.block.root = s.election.votes.id → other.sequence ≤ vote.sequence

structure Sound (s : Race) : Prop where
  waits : ∀ vote ∈ s.waiting, vote ∈ s.accepted
  accounted : ∀ vote ∈ s.accepted, vote.block.root = s.election.votes.id → vote ∈ s.waiting ∨ vote ∈ s.recorded
  rooted : ∀ vote ∈ s.recorded, vote ∈ s.accepted ∧ vote.block.root = s.election.votes.id
  holds : ∀ vote ∈ s.recorded, ∃ last ∈ s.recorded, last.account = vote.account ∧
    s.election.votes.repVotes.get vote.account = some last.block ∧
    ∀ other ∈ s.recorded, other.account = vote.account → other.sequence ≤ last.sequence

end Race

theorem vote_id (votes : Votes) (vote : Vote) : (votes.vote vote).1.id = votes.id := by
  rw [vote_records]

theorem vote_others (votes : Votes) (vote : Vote) (account : Account) (other : account ≠ vote.account) :
    (votes.vote vote).1.repVotes.get account = votes.repVotes.get account := by
  rw [vote_records]
  exact Table.get_put_ne _ _ _ _ other

theorem election_vote_settles (env : Env) (inactiveSupply : Amount) (s : Store) (table : Table Account Bytes)
    (cache : Table Account Vote) (election : Election) (vote : Vote) (orders : (votes : Votes) → Orders s votes) :
    Settles (electionVote env inactiveSupply s table cache election vote orders) (fun _ => True) fun out =>
      out.2.1.votes = (election.votes.vote vote).1 ∧ ∃ kept : Vote, out.1 = cache.put vote.account kept ∧
        (kept.sequence : WithBot (BitVec 64)) = max (heldSequence table cache vote.account) vote.sequence := by
  unfold electionVote
  refine settles_bind (settles_mono (revalidate_settles vote) (fun _ _ => trivial) fun _ => id) fun next kept => ?_
  refine settles_bind (settles_mono (confirm_quorum_settles env inactiveSupply s _ _) (fun _ _ => trivial) fun _ => id) fun out same =>
    ?_
  exact ⟨same, kept⟩

section Steps

variable {env : Env} {inactiveSupply : Amount} {table : Table Account Bytes}

theorem sound_passed (s : Race) (sound : s.Sound) (vote : Vote) (other : vote.block.root ≠ s.election.votes.id)
    (cache : Table Account Vote) : ({ s with voteCache := cache, waiting := s.waiting.erase vote } : Race).Sound := by
  refine ⟨fun v member => sound.waits v (List.mem_of_mem_erase member), fun v member own => ?_, sound.rooted, sound.holds⟩
  have different : v ≠ vote := fun same => other (same ▸ own)
  exact (sound.accounted v member own).imp_left (List.mem_erase_of_ne different).mpr

theorem race_step_sound (s : Race) (action : CallStep) (t : Race) (sound : s.Sound) (inOrder : s.InOrder action)
    (step : RaceStep env inactiveSupply table s action t) : t.Sound := by
  cases step with
  | accept vote out returned code =>
      refine ⟨?_, ?_, fun v member => ⟨List.mem_cons_of_mem _ (sound.rooted v member).1, (sound.rooted v member).2⟩, sound.holds⟩
      · intro v member
        obtain rfl | old := List.mem_cons.mp member
        · exact List.mem_cons_self
        · exact List.mem_cons_of_mem _ (sound.waits v old)
      · intro v member own
        obtain rfl | old := List.mem_cons.mp member
        · exact Or.inl List.mem_cons_self
        · exact (sound.accounted v old own).imp_left (List.mem_cons_of_mem _)
  | refuse vote out returned code => exact ⟨sound.waits, sound.accounted, sound.rooted, sound.holds⟩
  | record vote ledger orders out waits own returned =>
      obtain ⟨votes, _⟩ :=
        settles_returned (election_vote_settles env inactiveSupply ledger table s.voteCache s.election vote orders) returned
      have sameId : out.2.1.votes.id = s.election.votes.id := by rw [votes, vote_id]
      refine ⟨fun v member => sound.waits v (List.mem_of_mem_erase member), ?_, ?_, ?_⟩
      · intro v member root
        rw [sameId] at root
        obtain waiting | recorded := sound.accounted v member root
        · by_cases same : v = vote
          · exact Or.inr (List.mem_cons.mpr (Or.inl same))
          · exact Or.inl ((List.mem_erase_of_ne same).mpr waiting)
        · exact Or.inr (List.mem_cons_of_mem _ recorded)
      · intro v member
        rw [sameId]
        obtain rfl | old := List.mem_cons.mp member
        · exact ⟨sound.waits v waits, own⟩
        · exact sound.rooted v old
      · intro v member
        rw [votes]
        by_cases owner : v.account = vote.account
        · -- the vote is now the last one of its account
          refine ⟨vote, List.mem_cons_self, owner.symm, by rw [owner, vote_recorded], fun other listed same => ?_⟩
          obtain rfl | old := List.mem_cons.mp listed
          · exact le_refl _
          · exact inOrder own other old (same.trans owner)
        · obtain rfl | old := List.mem_cons.mp member
          · exact absurd rfl owner
          · obtain ⟨last, listed, same, held, highest⟩ := sound.holds v old
            refine ⟨last, List.mem_cons_of_mem _ listed, same, by rw [vote_others _ _ _ owner, held], fun other listed equal => ?_⟩
            obtain rfl | older := List.mem_cons.mp listed
            · exact absurd equal.symm owner
            · exact highest other older equal
  | ignore vote waits other => exact sound_passed s sound vote other s.voteCache
  | elsewhere vote cache waits other returned => exact sound_passed s sound vote other cache

theorem vote_accepted (written : Written table) (s : Race) (vote : Vote) (signed : Signed env vote)
    (above : heldSequence table s.voteCache vote.account ≤ vote.sequence) :
    ∃ cache, heldSequence table cache vote.account = vote.sequence ∧ RaceStep env inactiveSupply table s (.validate vote)
      { s with voteCache := cache, waiting := vote :: s.waiting, accepted := vote :: s.accepted } := by
  obtain ⟨out, returned, ⟨unsigned, _⟩ | validated⟩ := settles_never (@validate_settles env table s.voteCache vote)
    fun _ unwritten => unwritten written
  · exact absurd signed unsigned
  · refine ⟨out.1, ?_, .accept s vote out returned (validated.accepts.mpr above)⟩
    rw [validated_held vote out validated, raise_own, max_eq_right above]

theorem confirm_returns [HashesApart env] (ledger : Store) (reached : Reachable env ledger) (election : Election)
    (orders : Orders ledger election.votes) (recorded : ∃ block, Recorded election.votes block) :
    ∃ out, confirmIfQuorum env inactiveSupply ledger election orders = .ok out ∧ out.1.votes = election.votes := by
  obtain ⟨L, consistent, agrees⟩ := reachable_agrees reached
  obtain ⟨weight, winner, first, _⟩ := winner_counts ledger election.votes orders recorded (weights_within consistent agrees _)
  refine settles_never (confirm_quorum_settles env inactiveSupply ledger election orders) fun _ none => ?_
  rw [first] at none
  cases none

theorem vote_observed (written : Written table) [HashesApart env] (ledger : Store) (reached : Reachable env ledger) (s : Race)
    (vote : Vote) (signed : Signed env vote) (waits : vote ∈ s.waiting) (own : vote.block.root = s.election.votes.id) :
    ∃ cache election, election.votes = (s.election.votes.vote vote).1 ∧ RaceStep env inactiveSupply table s (.observe vote)
      { s with voteCache := cache, election := election, waiting := s.waiting.erase vote, recorded := vote :: s.recorded } := by
  let orders : (votes : Votes) → Orders ledger votes := fun votes => Classical.choice (exists_orders ledger votes)
  obtain ⟨cache, validated, _⟩ := settles_never (@revalidate_settles env table s.voteCache vote) fun _ fails => fails signed written
  obtain ⟨out, confirmed, votes⟩ := @confirm_returns env inactiveSupply _ ledger reached
    { s.election with votes := (s.election.votes.vote vote).1 } (orders _) ⟨vote.block, vote.account, vote_recorded _ vote⟩
  refine ⟨cache, out.1, votes, .record s vote ledger orders (cache, out) waits own ?_⟩
  unfold electionVote
  rw [validated, bind_ok]
  dsimp only
  rw [confirmed, bind_ok]

def Race.OneByOne (s : Race) : CallStep → Prop
  | .validate _ => s.waiting = []
  | .observe _ => True

structure Race.Settled (table : Table Account Bytes) (s : Race) : Prop where
  reached : ∀ vote ∈ s.recorded, vote.sequence ≤ heldSequence table s.voteCache vote.account
  single : ∀ vote ∈ s.waiting, s.waiting = [vote] ∧ heldSequence table s.voteCache vote.account = vote.sequence

theorem held_rises (cache : Table Account Vote) (vote kept : Vote)
    (value : (kept.sequence : WithBot (BitVec 64)) = max (heldSequence table cache vote.account) vote.sequence) (account : Account) :
    heldSequence table cache account ≤ heldSequence table (cache.put vote.account kept) account := by
  rw [held_put]
  by_cases own : account = vote.account
  · rw [own, Function.update_self, value]
    exact le_max_left _ _
  · rw [Function.update_of_ne own]

theorem validate_rises (cache : Table Account Vote) (vote : Vote) (out : Table Account Vote × VoteResult)
    (returned : voteValidate env table cache vote = .ok out) (account : Account) :
    heldSequence table cache account ≤ heldSequence table out.1 account := by
  obtain ⟨_, rfl⟩ | validated := settles_returned (validate_settles vote) returned
  · exact le_refl _
  · obtain ⟨kept, put, value⟩ := validated.kept
    rw [put]
    exact held_rises cache vote kept value account

theorem settled_observed (s : Race) (settled : s.Settled table) (vote : Vote) (waits : vote ∈ s.waiting) (cache : Table Account Vote)
    (election : Election) (rises : ∀ account, heldSequence table s.voteCache account ≤ heldSequence table cache account)
    (recorded : List Vote) (among : ∀ v ∈ recorded, v = vote ∨ v ∈ s.recorded) :
    ({ s with
      voteCache := cache, election := election, waiting := s.waiting.erase vote, recorded := recorded } : Race).Settled table := by
  obtain ⟨alone, current⟩ := settled.single vote waits
  refine ⟨fun v member => ?_, fun v member => ?_⟩
  · obtain rfl | old := among v member
    · exact le_trans current.ge (rises _)
    · exact le_trans (settled.reached v old) (rises _)
  · rw [alone, List.erase_cons_head] at member
    exact absurd member List.not_mem_nil

theorem settled_in_order (s : Race) (settled : s.Settled table) (vote : Vote) (waits : vote ∈ s.waiting) :
    s.InOrder (.observe vote) := by
  intro _ newer recorded owner
  have below := settled.reached newer recorded
  rw [owner, (settled.single vote waits).2] at below
  exact WithBot.coe_le_coe.mp below

theorem one_by_one_in_order (start t : Race) (none : start.waiting = []) (unrecorded : start.recorded = [])
    (path : Trail (RaceStep env inactiveSupply table) Race.OneByOne start t) :
    Trail (RaceStep env inactiveSupply table) Race.InOrder start t := by
  refine (trail_invariant (RaceStep env inactiveSupply table) Race.OneByOne
    (fun s => Trail (RaceStep env inactiveSupply table) Race.InOrder start s ∧ s.Settled table) ?_ ?_ path).1
  · exact ⟨.start, by simp [unrecorded], by simp [none]⟩
  · rintro s action t ⟨path, settled⟩ alone step
    cases step with
    | accept vote out returned code =>
        refine ⟨path.step _ (CallStep.validate vote) _ trivial (.accept s vote out returned code), ?_⟩
        have empty : s.waiting = [] := alone
        refine ⟨fun v member => le_trans (settled.reached v member) (validate_rises s.voteCache vote out returned _),
          fun v member => ?_⟩
        rw [empty] at member ⊢
        obtain rfl := List.mem_singleton.mp member
        obtain ⟨_, rfl⟩ | validated := settles_returned (validate_settles v) returned
        · cases code
        · exact ⟨rfl, by rw [validated_held v out validated, raise_own, max_eq_right (validated.accepts.mp code)]⟩
    | refuse vote out returned code =>
        refine ⟨path.step _ (CallStep.validate vote) _ trivial (.refuse s vote out returned code), ?_⟩
        have empty : s.waiting = [] := alone
        exact ⟨fun v member => le_trans (settled.reached v member) (validate_rises s.voteCache vote out returned _), by simp [empty]⟩
    | record vote ledger orders out waits own returned =>
        refine ⟨path.step _ _ _ (settled_in_order s settled vote waits) (.record s vote ledger orders out waits own returned), ?_⟩
        obtain ⟨_, kept, put, value⟩ :=
          settles_returned (election_vote_settles env inactiveSupply ledger table s.voteCache s.election vote orders) returned
        exact settled_observed s settled vote waits out.1 out.2.1 (put ▸ held_rises s.voteCache vote kept value) _ fun _ =>
          List.mem_cons.mp
    | ignore vote waits other =>
        refine ⟨path.step _ _ _ (settled_in_order s settled vote waits) (.ignore s vote waits other), ?_⟩
        exact settled_observed s settled vote waits s.voteCache s.election (fun _ => le_refl _) _ fun _ => Or.inr
    | elsewhere vote cache waits other returned =>
        refine ⟨path.step _ _ _ (settled_in_order s settled vote waits) (.elsewhere s vote cache waits other returned), ?_⟩
        obtain ⟨kept, put, value⟩ := settles_returned (revalidate_settles vote) returned
        exact settled_observed s settled vote waits cache s.election (put ▸ held_rises s.voteCache vote kept value) _ fun _ => Or.inr

end Steps

-- If the votes of an account are recorded in the order of their sequence numbers, the election ends up with
-- the newest of each account. Calls that come one after the other do so.
theorem newest_vote_recorded (env : Env) (inactiveSupply : Amount) (table : Table Account Bytes) (start t : Race)
    (none : start.waiting = []) (first : start.accepted = []) (unrecorded : start.recorded = []) (finished : t.waiting = []) :
    (Trail (RaceStep env inactiveSupply table) Race.InOrder start t →
      ∀ vote ∈ t.accepted, vote.block.root = t.election.votes.id → t.HoldsNewest vote.account) ∧
    (Trail (RaceStep env inactiveSupply table) Race.OneByOne start t →
    Trail (RaceStep env inactiveSupply table) Race.InOrder start t) := by
  refine ⟨fun path vote accepted own => ?_, one_by_one_in_order start t none unrecorded⟩
  have sound : t.Sound := by
    refine trail_invariant (RaceStep env inactiveSupply table) Race.InOrder Race.Sound ?_ race_step_sound path
    exact ⟨by simp [none], by simp [first], by simp [unrecorded], by simp [unrecorded]⟩
  have recorded : ∀ v ∈ t.accepted, v.block.root = t.election.votes.id → v ∈ t.recorded := by
    intro v member root
    obtain waiting | done := sound.accounted v member root
    · rw [finished] at waiting
      exact absurd waiting List.not_mem_nil
    · exact done
  obtain ⟨last, listed, owner, held, highest⟩ := sound.holds vote (recorded vote accepted own)
  obtain ⟨member, root⟩ := sound.rooted last listed
  exact ⟨last, member, owner, root, held, fun other among same its => highest other (recorded other among its) same⟩

def sampleRace : Race := ⟨.empty, ⟨.start (sampleKey 9) sampleSend, sampleSend, false⟩, [], [], []⟩

def firstVote : Vote := sampleVote 1

def secondVote : Vote := ⟨sampleKey 3, 2, workedSend, 0⟩

def waitingRace (cache : Table Account Vote) : Race :=
  ⟨cache, sampleRace.election, [secondVote, firstVote], [secondVote, firstVote], []⟩

theorem both_accepted (meets : Race → CallStep → Prop) (validates : ∀ s vote, meets s (.validate vote)) :
    ∃ cache, Trail (RaceStep sampleEnv 0 .empty) meets sampleRace (waitingRace cache) := by
  obtain ⟨cache, held, accept⟩ := @vote_accepted sampleEnv 0 .empty written_empty sampleRace firstVote (by decide +kernel) bot_le
  have below : heldSequence .empty cache secondVote.account ≤ secondVote.sequence := le_trans (le_of_eq held) (by decide)
  obtain ⟨cache, _, again⟩ := @vote_accepted sampleEnv 0 .empty written_empty
    ⟨cache, sampleRace.election, [firstVote], [firstVote], []⟩ secondVote (by decide +kernel) below
  have path := Trail.start.step _ (CallStep.validate firstVote) _ (validates _ _) accept
  exact ⟨cache, path.step _ (CallStep.validate secondVote) _ (validates _ _) again⟩

theorem both_observed (meets : Race → CallStep → Prop) (s : Race) (a b : Vote)
    (own : ∀ vote ∈ [a, b], Signed sampleEnv vote ∧ vote.block.root = s.election.votes.id)
    (waits : a ∈ s.waiting ∧ b ∈ s.waiting.erase a) (first : meets s (.observe a)) (second : ∀ cache election, meets
      { s with voteCache := cache, election := election, waiting := s.waiting.erase a, recorded := a :: s.recorded } (.observe b))
    (path : Trail (RaceStep sampleEnv 0 .empty) meets sampleRace s) :
    ∃ cache election, election.votes = ((s.election.votes.vote a).1.vote b).1 ∧ Trail (RaceStep sampleEnv 0 .empty) meets sampleRace
      { s with
        voteCache := cache, election := election, waiting := (s.waiting.erase a).erase b, recorded := b :: a :: s.recorded } := by
  obtain ⟨ledger, _, replay⟩ := replay_all_replays sampleEnv 20 [] (by decide +kernel)
  have reached := replay_reachable replay
  obtain ⟨signed, root⟩ := own a List.mem_cons_self
  obtain ⟨cache, election, votes, step⟩ := @vote_observed sampleEnv 0 .empty written_empty _ ledger reached s a signed waits.1 root
  have path := path.step _ (CallStep.observe a) _ first step
  obtain ⟨signed, root⟩ := own b (List.mem_cons_of_mem _ List.mem_cons_self)
  have same : election.votes.id = s.election.votes.id := by rw [votes, vote_id]
  obtain ⟨cache', election', votes', step'⟩ := @vote_observed sampleEnv 0 .empty written_empty _ ledger reached
    { s with voteCache := cache, election := election, waiting := s.waiting.erase a, recorded := a :: s.recorded } b signed waits.2
    (root.trans same.symm)
  exact ⟨cache', election', by rw [votes', votes], path.step _ (CallStep.observe b) _ (second cache election) step'⟩

theorem votes_rooted : ∀ vote ∈ [firstVote, secondVote], Signed sampleEnv vote ∧ vote.block.root = sampleRace.election.votes.id := by
  decide +kernel

theorem newest_vote_recorded_sample : ∃ t, Trail (RaceStep sampleEnv 0 .empty) Race.InOrder sampleRace t ∧ t.waiting = [] ∧
    t.accepted = [secondVote, firstVote] ∧ t.recorded = [secondVote, firstVote] ∧ t.HoldsNewest (sampleKey 3) := by
  have waits : firstVote ∈ [secondVote, firstVote] ∧ secondVote ∈ [secondVote, firstVote].erase firstVote := by decide +kernel
  have finished : ([secondVote, firstVote].erase firstVote).erase secondVote = [] := by decide +kernel
  obtain ⟨cache, path⟩ := both_accepted Race.InOrder fun _ _ => trivial
  obtain ⟨_, election, votes, path⟩ := both_observed Race.InOrder (waitingRace cache) firstVote secondVote votes_rooted waits
    (fun _ newer member => absurd member List.not_mem_nil)
    (fun _ _ _ newer member _ => by rw [List.mem_singleton.mp member]; decide) path
  have root : election.votes.id = sampleRace.election.votes.id := by
    rw [votes, vote_id, vote_id]
    rfl
  rw [waitingRace, finished] at path
  refine ⟨_, path, rfl, rfl, rfl, ?_⟩
  exact (newest_vote_recorded sampleEnv 0 .empty sampleRace _ rfl rfl rfl rfl).1 path firstVote
    (List.mem_cons_of_mem _ List.mem_cons_self) ((votes_rooted firstVote List.mem_cons_self).2.trans root.symm)

-- If the older vote is recorded last, its block stays.
theorem older_vote_recorded : ∃ t, Trail (RaceStep sampleEnv 0 .empty) (fun _ _ => True) sampleRace t ∧ t.waiting = [] ∧
    t.accepted = [secondVote, firstVote] ∧ t.election.votes.repVotes.get (sampleKey 3) = some firstVote.block ∧
    ¬ t.HoldsNewest (sampleKey 3) := by
  have waits : secondVote ∈ [secondVote, firstVote] ∧ firstVote ∈ [secondVote, firstVote].erase secondVote := by decide +kernel
  have finished : ([secondVote, firstVote].erase secondVote).erase firstVote = [] := by decide +kernel
  have rooted : ∀ vote ∈ [secondVote, firstVote], Signed sampleEnv vote ∧ vote.block.root = sampleRace.election.votes.id :=
    fun vote member => votes_rooted vote ((List.Perm.swap _ _ _).mem_iff.mp member)
  obtain ⟨cache, path⟩ := both_accepted (fun _ _ => True) fun _ _ => trivial
  obtain ⟨_, election, votes, path⟩ := both_observed (fun _ _ => True) (waitingRace cache) secondVote firstVote rooted waits trivial
    (fun _ _ => trivial) path
  have kept : election.votes.repVotes.get (sampleKey 3) = some firstVote.block := by
    rw [votes]
    exact vote_recorded _ firstVote
  have root : election.votes.id = sampleRace.election.votes.id := by
    rw [votes, vote_id, vote_id]
    rfl
  rw [waitingRace, finished] at path
  refine ⟨_, path, rfl, rfl, kept, ?_⟩
  rintro ⟨vote, accepted, _, _, held, highest⟩
  have newest := highest secondVote List.mem_cons_self rfl ((votes_rooted secondVote (by simp)).2.trans root.symm)
  have block := Option.some.inj (kept.symm.trans held)
  obtain rfl | older := List.mem_cons.mp accepted
  · exact worked_differs block.symm
  · rw [List.mem_singleton.mp older] at newest
    exact absurd newest (by decide)

end Rai
