import Raiblocks.Replay

set_option autoImplicit false

namespace Rai

open Kit

-- A run over plain blocks with the log of what it accepted; a rollback takes its blocks out of the log.
inductive Ran (env : Env) : List Block → Store → Prop where
  | genesis (now : Nat) (s : Store) (started : genesisInitialize env Store.fresh now = .ok s) : Ran env [] s
  | process (fuel : Nat) (clock : Hash → Nat) (uninit : ProcessReturn) (log : List Block) (s : Store) (block : Block)
      (out : Store × ProcessReturn) (ran : Ran env log s) (legacy : block.kind ≠ .sendBlockV2)
      (returned : ledgerProcess env fuel clock uninit s block = .ok out) :
      Ran env (if out.2.code = .progress then log ++ [block] else log) out.1
  | rollback (fuel : Nat) (clock : Hash → Nat) (log : List Block) (s : Store) (h : Hash) (s' : Store) (ran : Ran env log s)
      (stored : blockExists s h = true) (later : h ≠ genesisHash env) (returned : ledgerRollback env clock fuel s h = .ok s') :
      Ran env (log.filter fun block => blockExists s' (block.hash env)) s'

def NamesBlock (s : Store) (x d : Hash) : Prop :=
  ∃ block, blockGet s x = .ok (some block) ∧ (block.previous = d ∨ block.source = d)

section Dependencies

variable {L : Lattice} {s : Store} (agrees : Agrees L s)
include agrees

theorem names_iff (x d : Hash) (present : L.get d ≠ none) : NamesBlock s x d ↔ Needs L x d := by
  constructor
  · rintro ⟨block, read, named⟩
    cases found : L.get x with
    | none =>
        rw [get_absent agrees.blocks x found] at read
        cases read
    | some n =>
        obtain ⟨block', read', same⟩ := get_reads_as agrees.blocks x n found
        rw [read'] at read
        cases read
        rw [reads_as_previous n.block same, reads_as_source n.block block same] at named
        exact ⟨n, found, named.imp Eq.symm Eq.symm, present⟩
  · rintro ⟨n, stored, named, _⟩
    obtain ⟨block, read, same⟩ := get_reads_as agrees.blocks x n stored
    refine ⟨block, read, ?_⟩
    rw [reads_as_previous n.block same, reads_as_source n.block block same]
    exact named.imp Eq.symm Eq.symm

theorem names_depends (x h : Hash) (present : L.get h ≠ none) :
    Relation.ReflTransGen (NamesBlock s) x h ↔ Depends L x h := by
  constructor
  · intro path
    have both : L.get x ≠ none ∧ Depends L x h := by
      induction path using Relation.ReflTransGen.head_induction_on with
      | refl => exact ⟨present, Relation.ReflTransGen.refl⟩
      | @head y d names _ ih =>
          have needs := (names_iff agrees y d ih.1).mp names
          refine ⟨?_, Relation.ReflTransGen.head needs ih.2⟩
          obtain ⟨n, stored, _⟩ := needs
          rw [stored]
          exact Option.some_ne_none n
    exact both.2
  · intro depends
    induction depends using Relation.ReflTransGen.head_induction_on with
    | refl => exact Relation.ReflTransGen.refl
    | @head y d needs _ ih =>
        obtain ⟨n, stored, named, present'⟩ := needs
        exact Relation.ReflTransGen.head ((names_iff agrees y d present').mpr ⟨n, stored, named, present'⟩) ih

end Dependencies

section Runs

variable {env : Env}

theorem filter_kept (log : List Block) (L : Lattice) (s : Store) (agrees : Agrees L s) :
    (log.filter fun block => blockExists s (block.hash env)) = log.filter fun block => (L.get (block.hash env)).isSome := by
  apply List.filter_congr
  intro block _
  rw [Bool.eq_iff_iff, exists_iff agrees.blocks, Option.isSome_iff_ne_none]

theorem ran_builds [HashesApart env] (log : List Block) (s : Store) (ran : Ran env log s) :
    (∀ block ∈ log, block.kind ≠ .sendBlockV2) ∧ ∃ L, Builds env log L ∧ Becomes L Store.fresh s := by
  induction ran with
  | genesis now s started => exact ⟨by simp, _, Builds.genesis, (genesis_started started).toBecomes⟩
  | process fuel clock uninit log s block out _ legacy returned ih =>
      obtain ⟨older, L, built, becomes⟩ := ih
      have consistent := builds_consistent built
      obtain ⟨n, accepted⟩ | ⟨same, refused⟩ :=
        process_returned clock out consistent becomes.agrees returned
      · rw [if_pos accepted.code]
        refine ⟨?_, _, ?_, becomes_accepted L s Store.fresh block n out becomes legacy accepted⟩
        · intro b member
          obtain before | last := List.mem_append.mp member
          · exact older b before
          · exact List.mem_singleton.mp last ▸ legacy
        · rw [← accepted.carries]
          exact Builds.grow log L _ n built (accepted.carries ▸ accepted.attach)
      · rw [if_neg (refused_code env L block _ refused), same]
        exact ⟨older, L, built, becomes⟩
  | rollback fuel clock log s h s' _ stored later returned ih =>
      obtain ⟨older, M, built, becomes⟩ := ih
      have consistent := builds_consistent built
      obtain ⟨L, cut⟩ := rollback_returned clock consistent becomes.agrees stored later returned
      rw [filter_kept log L s' cut.becomes.agrees]
      exact ⟨fun b member => older b (List.mem_filter.mp member).1, L,
        builds_prune log M L built cut.consistent cut.below, becomes_trans becomes cut.becomes⟩

-- Rolling back comes to an end, takes off exactly the blocks that depend on the
-- given one, and leaves what a replay of the other blocks would give.
theorem rollback_replays (apart : HashesApart env) (log : List Block) (s : Store) (ran : Ran env log s) (clock : Hash → Nat) (h : Hash)
    (stored : blockExists s h = true) (later : h ≠ genesisHash env) :
    (Returns fun fuel => ledgerRollback env clock fuel s h) ∧
    ∀ fuel s', ledgerRollback env clock fuel s h = .ok s' →
      (∀ x, blockExists s' x = true ↔ blockExists s x = true ∧ ¬ Relation.ReflTransGen (NamesBlock s) x h) ∧
      (∃ t, Replay env (log.filter fun block => blockExists s' (block.hash env)) t) ∧
      ∀ t, Replay env (log.filter fun block => blockExists s' (block.hash env)) t →
        SameTables s' t ∧ ∀ r, representationGet s' r = representationGet t r := by
  obtain ⟨plain, M, built, becomes⟩ := ran_builds log s ran
  have consistent := builds_consistent built
  have legacy := builds_legacy built plain
  obtain ⟨rank, top, ranked⟩ := exists_ranked consistent
  have present := (exists_iff becomes.agrees.blocks h).mp stored
  obtain ⟨n, found⟩ := Option.ne_none_iff_exists'.mp present
  constructor
  · exact returns_settled (fun fuel => ledger_rollback_settles env clock M s h n rank top fuel
      ⟨consistent, becomes.agrees, ranked⟩ found later) legacy
  · intro fuel s' returned
    obtain ⟨L, cut⟩ := rollback_returned clock consistent becomes.agrees stored later returned
    have kept := builds_prune log M L built cut.consistent cut.below
    have fewer : ∀ block ∈ log.filter (fun block => (L.get (block.hash env)).isSome), block.kind ≠ .sendBlockV2 :=
      fun block member => plain block (List.mem_filter.mp member).1
    rw [filter_kept log L s' cut.becomes.agrees]
    refine ⟨?_, ?_, ?_⟩
    · intro x
      rw [exists_iff cut.becomes.agrees.blocks, exists_iff becomes.agrees.blocks,
        names_depends becomes.agrees x h present, ne_eq, cut_get consistent cut x, not_or]
    · obtain ⟨t, replay, _⟩ := builds_replay _ L fewer kept
      exact ⟨t, replay⟩
    · intro t replay
      obtain ⟨L', built', holds⟩ := replay_builds _ t fewer replay
      have same := builds_unique _ _ L L' kept built' fun _ => Iff.rfl
      subst same
      refine ⟨becomes_same (becomes_trans becomes cut.becomes) holds.toBecomes, ?_⟩
      exact fun r => (cut.becomes.agrees.weights r).trans (holds.agrees.weights r).symm

end Runs

theorem replay_ran (env : Env) (log : List Block) (s : Store) (legacy : ∀ block ∈ log, block.kind ≠ .sendBlockV2)
    (replay : Replay env log s) : Ran env log s := by
  induction replay with
  | genesis now s started => exact Ran.genesis now s started
  | process fuel clock uninit log s block out _ returned progress ih =>
      have ran := Ran.process fuel clock uninit log s block out (ih fun b member => legacy b (List.mem_append_left _ member))
        (legacy block (by simp)) returned
      rwa [if_pos progress] at ran

theorem rollback_replays_sample : ∃ s s' t fuel,
    Ran sampleEnv sampleLog s ∧
    ledgerRollback sampleEnv (fun _ => 0) fuel s (sampleSendMore.hash sampleEnv) = .ok s' ∧
    (∀ x, blockExists s' x = true ↔
      blockExists s x = true ∧ ¬ Relation.ReflTransGen (NamesBlock s) x (sampleSendMore.hash sampleEnv)) ∧
    SameTables s' t ∧ ∀ r, representationGet s' r = representationGet t r := by
  obtain ⟨s, replay⟩ := sample_replayed
  have ran := replay_ran sampleEnv sampleLog s (by decide) replay
  have stored := replay_stored sampleLog s (by decide) replay sampleSendMore (by simp [sampleLog])
  obtain ⟨⟨bound, returns⟩, leaves⟩ := rollback_replays sample_apart sampleLog s ran (fun _ => 0) _ stored (by decide +kernel)
  obtain ⟨s', returned⟩ := returns bound (Nat.le_refl bound)
  obtain ⟨left, ⟨t, replayed⟩, same⟩ := leaves bound s' returned
  exact ⟨s, s', t, bound, ran, returned, left, same t replayed⟩

end Rai
