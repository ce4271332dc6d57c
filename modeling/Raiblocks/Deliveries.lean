import Raiblocks.Replay
import Raiblocks.VoteStore

set_option autoImplicit false

namespace Rai

open Kit

inductive VoteStep where
  | vote (vote : Vote)
  | flush

inductive VoteRun (env : Env) : VoteStore → List VoteStep → VoteStore → List Vote → Prop where
  | done (s : VoteStore) : VoteRun env s [] s []
  | vote (s t : VoteStore) (elections : Hash → Bool) (vote : Vote) (out : VoteStore × VoteResult) (steps : List VoteStep)
      (delivered : List Vote) (returned : voteProcessorVote env elections s vote = .ok out)
      (rest : VoteRun env out.1 steps t delivered) :
      VoteRun env s (.vote vote :: steps) t (if out.2.code = .vote then vote :: delivered else delivered)
  | flush (s t : VoteStore) (order : List (Account × Vote)) (steps : List VoteStep) (delivered : List Vote)
      (lists : s.voteCache.Lists order) (rest : VoteRun env (flushVotes s order) steps t delivered) :
      VoteRun env s (.flush :: steps) t delivered

def VoteStep.signed (env : Env) (step : VoteStep) : Option Vote :=
  match step with
  | .vote handed => if Signed env handed then some handed else none
  | .flush => none

def signedVotes (env : Env) (steps : List VoteStep) : List Vote := steps.filterMap (VoteStep.signed env)

abbrev VoteStore.held (s : VoteStore) : Account → WithBot (BitVec 64) := heldSequence s.votes s.voteCache

section Processor

variable (env : Env) (elections : Hash → Bool) (s : VoteStore) (vote : Vote)

theorem processor_settles : Settles (voteProcessorVote env elections s vote) (fun _ => ¬ Written s.votes) fun out =>
    out.1.votes = s.votes ∧ ((¬ Signed env vote ∧ out.1 = s ∧ out.2.code ≠ .vote) ∨
      (Signed env vote ∧ out.1.held = raise Vote.account Vote.sequence s.held vote ∧
        (out.2.code = .vote ↔ s.held vote.account ≤ vote.sequence))) := by
  unfold voteProcessorVote
  refine settles_bind (validate_settles vote) fun out checked => ?_
  obtain ⟨unsigned, rfl⟩ | validated := checked
  · rw [if_neg (by simp)]
    exact ⟨rfl, Or.inl ⟨unsigned, rfl, by simp⟩⟩
  · have marked := validated_held vote out validated
    split
    · refine settles_bind (settles_mono (revalidate_settles vote) (fun _ fails => fails validated.signed) fun _ => id) fun next again =>
        ?_
      obtain ⟨kept, rfl, value⟩ := again
      refine ⟨rfl, Or.inr ⟨validated.signed, ?_, validated.accepts⟩⟩
      rw [VoteStore.held, held_put, value, marked, raise_own, max_assoc, max_self, ← raise_own, Function.update_eq_self]
    · exact ⟨rfl, Or.inr ⟨validated.signed, marked, validated.accepts⟩⟩

end Processor

section Runs

variable (env : Env)

theorem run_returns (elections : Hash → Bool) (s : VoteStore) (written : Written s.votes) (steps : List VoteStep) :
    ∃ t delivered, VoteRun env s steps t delivered := by
  induction steps generalizing s with
  | nil => exact ⟨s, [], .done s⟩
  | cons step steps ih =>
      cases step with
      | vote vote =>
          obtain ⟨out, returned, same, _⟩ := settles_never (processor_settles env elections s vote) fun _ unwritten => unwritten written
          obtain ⟨t, delivered, rest⟩ := ih out.1 (by rwa [same])
          exact ⟨t, _, .vote s t elections vote out steps delivered returned rest⟩
      | flush =>
          obtain ⟨order, lists⟩ := Table.exists_lists s.voteCache
          obtain ⟨t, delivered, rest⟩ := ih (flushVotes s order) (flush_written order lists written)
          exact ⟨t, _, .flush s t order steps delivered lists rest⟩

theorem run_delivers (s t : VoteStore) (steps : List VoteStep) (delivered : List Vote) (run : VoteRun env s steps t delivered) :
    delivered = accepted Vote.account Vote.sequence s.held (signedVotes env steps) := by
  induction run with
  | done s => rfl
  | vote s t elections vote out steps delivered returned _ ih =>
      obtain ⟨_, ⟨unsigned, same, refused⟩ | ⟨signed, marked, accepts⟩⟩ :=
        settles_returned (processor_settles env elections s vote) returned
      · have skipped : signedVotes env (.vote vote :: steps) = signedVotes env steps := List.filterMap_cons_none (if_neg unsigned)
        rw [if_neg refused, skipped, ih, same]
      · have taken : signedVotes env (.vote vote :: steps) = vote :: signedVotes env steps :=
          List.filterMap_cons_some (if_pos signed)
        rw [taken, accepted, ih, marked]
        by_cases passes : s.held vote.account ≤ vote.sequence
        · rw [if_pos passes, if_pos (accepts.mpr passes)]
        · rw [if_neg passes, if_neg fun code => passes (accepts.mp code)]
  | flush s t order steps delivered lists _ ih =>
      have same : (flushVotes s order).held = s.held := flush_held order lists
      rw [ih, same]
      rfl

end Runs

-- The sequence numbers delivered for an account never fall. They rise strictly exactly if a number that
-- comes again finds a higher one before it, handed in since or held from the start.
theorem deliveries_rise_iff (env : Env) (start : VoteStore) (written : Written start.votes) (steps : List VoteStep) :
    (∃ t delivered, VoteRun env start steps t delivered) ∧ ∀ t delivered, VoteRun env start steps t delivered →
      (delivered.Pairwise fun a b => a.account = b.account → a.sequence ≤ b.sequence) ∧
      ((delivered.Pairwise fun a b => a.account = b.account → a.sequence < b.sequence) ↔
        ∀ before vote, before ++ [vote] <+: signedVotes env steps →
          (∃ other ∈ before, other.account = vote.account ∧ other.sequence = vote.sequence) →
          vote.sequence < start.held vote.account ∨ ∃ newer ∈ before, newer.account = vote.account ∧
          vote.sequence < newer.sequence) := by
  refine ⟨run_returns env (fun _ => true) start written steps, fun t delivered run => ?_⟩
  rw [run_delivers env start t steps delivered run]
  refine ⟨accepted_rising Vote.account Vote.sequence _ _, (accepted_increasing Vote.account Vote.sequence _ _).trans ?_⟩
  refine forall₃_congr fun before vote _ => ?_
  rw [← lt_raised, ← not_le]
  exact ⟨fun fresh earlier passes => fresh ⟨earlier, passes⟩, fun below again => below again.earlier again.passes⟩

def sampleVote (sequence : BitVec 64) : Vote := ⟨sampleKey 3, sequence, sampleSend, 0⟩

theorem deliveries_rise_iff_sample : ∃ t delivered, VoteRun sampleEnv ⟨.empty, .empty⟩
    [.vote (sampleVote 1), .flush, .vote (sampleVote 2)] t delivered ∧
    delivered.Pairwise fun a b => a.account = b.account → a.sequence < b.sequence := by
  obtain ⟨⟨t, delivered, run⟩, rises⟩ := deliveries_rise_iff sampleEnv ⟨.empty, .empty⟩ written_empty
    [.vote (sampleVote 1), .flush, .vote (sampleVote 2)]
  refine ⟨t, delivered, run, (rises t delivered run).2.mpr ?_⟩
  rintro before vote inside ⟨other, member, _, same⟩
  have differ : (signedVotes sampleEnv [.vote (sampleVote 1), .flush, .vote (sampleVote 2)]).Pairwise fun a b =>
    a.sequence ≠ b.sequence := by
    decide +kernel
  exact absurd same ((List.pairwise_append.mp (differ.sublist inside.sublist)).2.2 other member vote (List.mem_singleton_self _))

theorem repeated_vote_delivered : ∃ t, VoteRun sampleEnv ⟨.empty, .empty⟩ [.vote (sampleVote 1), .vote (sampleVote 1)] t
    [sampleVote 1, sampleVote 1] ∧
    ¬ [sampleVote 1, sampleVote 1].Pairwise fun a b => a.account = b.account → a.sequence < b.sequence := by
  obtain ⟨t, delivered, run⟩ := run_returns sampleEnv (fun _ => true) ⟨.empty, .empty⟩ written_empty
    [.vote (sampleVote 1), .vote (sampleVote 1)]
  have signed : signedVotes sampleEnv [.vote (sampleVote 1), .vote (sampleVote 1)] = [sampleVote 1, sampleVote 1] := by decide +kernel
  have nothing : (VoteStore.mk .empty .empty).held = fun _ => ⊥ := rfl
  have twice := run_delivers _ _ _ _ _ run
  rw [signed, nothing] at twice
  have both : delivered = [sampleVote 1, sampleVote 1] := by
    rw [twice]
    simp [accepted, raise]
  exact ⟨t, both ▸ run, by decide⟩

end Rai
