import Raiblocks.Chains

set_option autoImplicit false

namespace Rai

open Kit

def StoredAs (s : Store) (h : Hash) (hashables : Hashables) : Prop :=
  ∃ block, blockGet s h = .ok (some block) ∧ block.hashables = hashables

inductive Worth (env : Env) (s : Store) : Hash → Amount → Prop where
  | send (h previous : Hash) (destination : Account) (balance : Amount)
      (stored : StoredAs s h (.sendBlock previous destination balance)) : Worth env s h balance
  | sendV2 (h previous : Hash) (destination : Account) (action : Bytes) (before : Amount)
      (stored : StoredAs s h (.sendBlockV2 previous destination action)) (prior : Worth env s previous before) : Worth env s h before
  | change (h previous : Hash) (representative : Account) (before : Amount)
      (stored : StoredAs s h (.changeBlock previous representative)) (prior : Worth env s previous before) : Worth env s h before
  | receive (h previous source sender : Hash) (destination : Account) (before held left : Amount)
      (stored : StoredAs s h (.receiveBlock previous source)) (sent : StoredAs s source (.sendBlock sender destination left))
      (prior : Worth env s previous before) (had : Worth env s sender held) : Worth env s h (before + (held - left))
  | opens (h source sender : Hash) (representative account destination : Account) (held left : Amount)
      (stored : StoredAs s h (.openBlock source representative account)) (sent : StoredAs s source (.sendBlock sender destination left))
      (had : Worth env s sender held) : Worth env s h (held - left)
  | issued (h : Hash) (representative account : Account)
      (stored : StoredAs s h (.openBlock (genesisAccount env.network) representative account)) : Worth env s h genesisAmount

def Collects (s : Store) (x h : Hash) : Prop :=
  ∃ block, blockGet s x = .ok (some block) ∧ (block.kind = .receiveBlock ∨ block.kind = .openBlock) ∧ block.source = h

section Reading

variable {env : Env} {L : Lattice} {s : Store} (consistent : Consistent env L) (agrees : Agrees L s)

include agrees in
theorem stored_as_iff (h : Hash) (hashables : Hashables) (legacy : hashables.kind ≠ .sendBlockV2) :
    StoredAs s h hashables ↔ ∃ n, L.get h = some n ∧ n.block.hashables = hashables := by
  constructor
  · rintro ⟨block, read, rfl⟩
    obtain ⟨n, stored, same⟩ := read_stored agrees read
    have kind : n.block.kind ≠ .sendBlockV2 := reads_as_kind n.block same ▸ legacy
    exact ⟨n, stored, congrArg Block.hashables (reads_as_exact n.block block same kind).symm⟩
  · rintro ⟨n, stored, rfl⟩
    exact ⟨n.block, get_legacy agrees.blocks h n stored legacy, rfl⟩

include agrees in
theorem stored_as_v2 (h previous : Hash) : (∃ destination action, StoredAs s h (.sendBlockV2 previous destination action)) ↔
    ∃ n destination action, L.get h = some n ∧ n.block.hashables = .sendBlockV2 previous destination action := by
  constructor
  · rintro ⟨destination, action, block, read, fields⟩
    obtain ⟨n, stored, same⟩ := read_stored agrees read
    obtain rfl | ⟨previous', destination', action', _, fields', read'⟩ := same
    · exact ⟨n, destination, action, stored, fields⟩
    · rw [fields] at read'
      cases read'
      exact ⟨n, _, _, stored, fields'⟩
  · rintro ⟨n, destination, action, stored, fields⟩
    obtain ⟨block, read, same⟩ := get_reads_as agrees.blocks h n stored
    obtain rfl | ⟨previous', destination', action', kept, fields', read'⟩ := same
    · exact ⟨destination, action, _, read, fields⟩
    · rw [fields] at fields'
      cases fields'
      exact ⟨_, kept, block, read, read'⟩

include consistent agrees

theorem worth_note [HashesApart env] (h : Hash) (balance : Amount) (worth : Worth env s h balance) :
    ∃ n, L.get h = some n ∧ n.balance = balance := by
  induction worth with
  | send h previous destination balance stored =>
      obtain ⟨n, found, fields⟩ := (stored_as_iff agrees h _ Kind.noConfusion).mp stored
      obtain ⟨_, _, _, value, _⟩ := stored_send consistent found fields
      exact ⟨n, found, value⟩
  | sendV2 h previous destination action before stored _ ih =>
      obtain ⟨n, _, _, found, fields⟩ := (stored_as_v2 agrees h previous).mp ⟨_, _, stored⟩
      obtain ⟨m, present, value, _⟩ := stored_v2 consistent found fields
      obtain ⟨m', present', rfl⟩ := ih
      cases present.symm.trans present'
      exact ⟨n, found, value⟩
  | change h previous representative before stored _ ih =>
      obtain ⟨n, found, fields⟩ := (stored_as_iff agrees h _ Kind.noConfusion).mp stored
      obtain ⟨m, present, value, _⟩ := stored_change consistent found fields
      obtain ⟨m', present', rfl⟩ := ih
      cases present.symm.trans present'
      exact ⟨n, found, value⟩
  | receive h previous source sender destination before held left stored sent _ _ ih ih' =>
      obtain ⟨n, found, fields⟩ := (stored_as_iff agrees h _ Kind.noConfusion).mp stored
      obtain ⟨k, sentAt, sentFields⟩ := (stored_as_iff agrees source _ Kind.noConfusion).mp sent
      obtain ⟨m, k', present, sentTo, value, _⟩ := stored_receive consistent found fields
      obtain ⟨j, held', _, _, amount⟩ := stored_send consistent sentAt sentFields
      cases sentAt.symm.trans sentTo.1
      obtain ⟨m', present', rfl⟩ := ih
      obtain ⟨j', had, rfl⟩ := ih'
      cases present.symm.trans present'
      cases held'.symm.trans had
      exact ⟨n, found, by rw [value, amount]⟩
  | opens h source sender representative account destination held left stored sent _ ih =>
      obtain ⟨n, found, fields⟩ := (stored_as_iff agrees h _ Kind.noConfusion).mp stored
      obtain ⟨k, sentAt, sentFields⟩ := (stored_as_iff agrees source _ Kind.noConfusion).mp sent
      obtain ⟨j, held', _, _, amount⟩ := stored_send consistent sentAt sentFields
      obtain ⟨j', had, rfl⟩ := ih
      cases held'.symm.trans had
      obtain ⟨issuer, _⟩ | ⟨_, k', sentTo, _, value, _⟩ := stored_open_source consistent found fields
      · rw [issuer, account_not_stored consistent _ (Or.inl rfl)] at sentAt
        cases sentAt
      · cases sentAt.symm.trans sentTo.1
        exact ⟨n, found, by rw [value, amount]⟩
  | issued h representative account stored =>
      obtain ⟨n, found, fields⟩ := (stored_as_iff agrees h _ Kind.noConfusion).mp stored
      obtain ⟨_, _, value, _⟩ | ⟨other, _⟩ := stored_open_source consistent found fields
      · exact ⟨n, found, value⟩
      · exact absurd rfl other

theorem worth_stored [HashesApart env] (h : Hash) (n : Note) (stored : L.get h = some n) : Worth env s h n.balance := by
  obtain ⟨rank, ranked⟩ := consistent.ranked
  -- A block is worth what the blocks it names make it, and those have a lower rank.
  obtain ⟨level, levelEq⟩ : ∃ level, rank h = level := ⟨_, rfl⟩
  induction level using Nat.strongRecOn generalizing h n with
  | ind level ih =>
    have lower : ∀ x d m k, L.get x = some m → (d = m.block.previous ∨ d = m.block.source) → L.get d = some k → rank d < rank x :=
      fun x d m k found named present => ranked x d ⟨m, found, named, by simp [present]⟩
    have drop : ∀ x k previous destination left, L.get x = some k → k.block.hashables =
      .sendBlock previous destination left → rank x < level →
        ∃ held, Worth env s previous held ∧ k.amount = held - left := by
      intro x k previous destination left found fields below
      obtain ⟨before, present, _, _, amount⟩ := stored_send consistent found fields
      have less := lower x previous k before found (Or.inl (by simp [Block.previous, fields])) present
      exact ⟨before.balance, ih _ (Nat.lt_trans less below) previous before present rfl, amount⟩
    cases fields : n.block.hashables with
    | sendBlock previous destination balance =>
        obtain ⟨_, _, _, value, _⟩ := stored_send consistent stored fields
        rw [value]
        exact Worth.send h _ _ _ ((stored_as_iff agrees h _ Kind.noConfusion).mpr ⟨n, stored, fields⟩)
    | sendBlockV2 previous destination action =>
        obtain ⟨before, present, value, _⟩ := stored_v2 consistent stored fields
        have less := lower h previous n before stored (Or.inl (by simp [Block.previous, fields])) present
        obtain ⟨_, _, storedAs⟩ := (stored_as_v2 agrees h previous).mpr ⟨n, _, _, stored, fields⟩
        rw [value]
        exact Worth.sendV2 h previous _ _ _ storedAs (ih _ (levelEq ▸ less) previous before present rfl)
    | changeBlock previous representative =>
        obtain ⟨before, present, value, _⟩ := stored_change consistent stored fields
        have less := lower h previous n before stored (Or.inl (by simp [Block.previous, fields])) present
        rw [value]
        exact Worth.change h previous _ _ ((stored_as_iff agrees h _ Kind.noConfusion).mpr ⟨n, stored, fields⟩)
          (ih _ (levelEq ▸ less) previous before present rfl)
    | receiveBlock previous source =>
        obtain ⟨before, sent, present, sentTo, value, _⟩ := stored_receive consistent stored fields
        have less := lower h previous n before stored (Or.inl (by simp [Block.previous, fields])) present
        have below := lower h source n sent stored (Or.inr (by simp [Block.source, fields])) sentTo.1
        obtain ⟨sender, left, sentFields⟩ := (recipient_eq_some sent.block _).mp sentTo.2
        obtain ⟨held, had, amount⟩ := drop source sent sender _ left sentTo.1 sentFields (levelEq ▸ below)
        rw [value, amount]
        exact Worth.receive h previous source sender _ _ held left ((stored_as_iff agrees h _ Kind.noConfusion).mpr ⟨n, stored, fields⟩)
          ((stored_as_iff agrees source _ Kind.noConfusion).mpr ⟨sent, sentTo.1, sentFields⟩)
          (ih _ (levelEq ▸ less) previous before present rfl) had
    | openBlock source representative account =>
        have storedAs := (stored_as_iff agrees h _ Kind.noConfusion).mpr ⟨n, stored, fields⟩
        obtain ⟨rfl, _, value, _⟩ | ⟨_, sent, sentTo, _, value, _⟩ := stored_open_source consistent stored fields
        · rw [value]
          exact Worth.issued h _ _ storedAs
        · have below := lower h source n sent stored (Or.inr (by simp [Block.source, fields])) sentTo.1
          obtain ⟨sender, left, sentFields⟩ := (recipient_eq_some sent.block _).mp sentTo.2
          obtain ⟨held, had, amount⟩ := drop source sent sender _ left sentTo.1 sentFields (levelEq ▸ below)
          rw [value, amount]
          exact Worth.opens h source sender _ _ _ held left storedAs
            ((stored_as_iff agrees source _ Kind.noConfusion).mpr ⟨sent, sentTo.1, sentFields⟩) had

omit consistent in
theorem collects_iff (x h : Hash) (nonzero : h ≠ 0) : Collects s x h ↔ ∃ n, L.get x = some n ∧ n.block.source = h := by
  constructor
  · rintro ⟨block, read, _, rfl⟩
    obtain ⟨n, stored, same⟩ := read_stored agrees read
    exact ⟨n, stored, (reads_as_source n.block block same).symm⟩
  · rintro ⟨n, stored, rfl⟩
    obtain ⟨block, read, same⟩ := get_reads_as agrees.blocks x n stored
    refine ⟨block, read, ?_, reads_as_source n.block block same⟩
    rw [reads_as_kind n.block same]
    exact spending_kind n.block nonzero

omit consistent in
theorem sent_as_iff (h : Hash) (d : Account) :
    (∃ previous balance, StoredAs s h (.sendBlock previous d balance)) ↔ ∃ n, SentTo L h d n := by
  constructor
  · rintro ⟨previous, balance, storedAs⟩
    obtain ⟨n, stored, fields⟩ := (stored_as_iff agrees h _ Kind.noConfusion).mp storedAs
    exact ⟨n, stored, (recipient_eq_some n.block d).mpr ⟨previous, balance, fields⟩⟩
  · rintro ⟨n, stored, addressed⟩
    obtain ⟨previous, balance, fields⟩ := (recipient_eq_some n.block d).mp addressed
    exact ⟨previous, balance, (stored_as_iff agrees h _ Kind.noConfusion).mpr ⟨n, stored, fields⟩⟩

end Reading

-- Pending entries are the sends nobody has collected, each with its sender and
-- what the balance dropped by, and a send is collected once, by its destination.
theorem pending_exact (env : Env) (apart : HashesApart env) (s : Store) (reached : Reachable env s) :
    (∀ d h, s.pending.get ⟨d, h⟩ ≠ none ↔
      (∃ previous balance, StoredAs s h (.sendBlock previous d balance)) ∧ ¬ ∃ x, Collects s x h) ∧
    (∀ d h info, s.pending.get ⟨d, h⟩ = some info → OnChain s info.source h ∧
      ∃ previous balance before, StoredAs s h (.sendBlock previous d balance) ∧ Worth env s previous before ∧
        (∀ other, Worth env s previous other → other = before) ∧ balance ≤ before ∧ info.amount = before - balance) ∧
    ∀ h previous d balance, StoredAs s h (.sendBlock previous d balance) → ∀ x, Collects s x h →
      OnChain s d x ∧ ∀ y, Collects s y h → y = x := by
  obtain ⟨L, consistent, agrees⟩ := reachable_agrees reached
  have collected_iff : ∀ h n, L.get h = some n → ((∃ x, Collects s x h) ↔ L.Received h) := by
    intro h n stored
    simp only [collects_iff agrees _ h (stored_ne_zero consistent h n stored), Lattice.Received]
  refine ⟨?_, ?_, ?_⟩
  · intro d h
    rw [agrees.pending, Option.ne_none_iff_exists', sent_as_iff agrees]
    simp only [pending_some_iff]
    constructor
    · rintro ⟨_, n, sentTo, unspent, _⟩
      exact ⟨⟨n, sentTo⟩, (collected_iff h n sentTo.1).not.mpr unspent⟩
    · rintro ⟨⟨n, sentTo⟩, uncollected⟩
      exact ⟨_, n, sentTo, (collected_iff h n sentTo.1).not.mp uncollected, rfl⟩
  · intro d h info found
    rw [agrees.pending] at found
    obtain ⟨n, sentTo, _, rfl⟩ := (pending_some_iff _ _).mp found
    obtain ⟨previous, balance, fields⟩ := (recipient_eq_some n.block d).mp sentTo.2
    obtain ⟨before, present, covered, _, amount⟩ := stored_send consistent sentTo.1 fields
    refine ⟨(on_chain_iff consistent agrees h n sentTo.1 n.account).mpr rfl, previous, balance, before.balance,
      (stored_as_iff agrees h _ Kind.noConfusion).mpr ⟨n, sentTo.1, fields⟩, worth_stored consistent agrees previous before present,
      ?_, covered, amount⟩
    intro other worth
    obtain ⟨m, present', value⟩ := worth_note consistent agrees previous other worth
    cases present.symm.trans present'
    exact value.symm
  · intro h previous d balance storedAs x collects
    obtain ⟨n, stored, fields⟩ := (stored_as_iff agrees h _ Kind.noConfusion).mp storedAs
    have nonzero := stored_ne_zero consistent h n stored
    obtain ⟨m, found, spent⟩ := (collects_iff agrees x h nonzero).mp collects
    obtain ⟨_, n', sentTo, _⟩ := stored_source consistent x h m found spent (Or.inl (by simp [stored]))
    cases stored.symm.trans sentTo.1
    have owner : d = m.account := by
      have addressed := sentTo.2
      simp only [Block.recipient, fields, Option.some.injEq] at addressed
      exact addressed
    refine ⟨(on_chain_iff consistent agrees x m found d).mpr owner, fun y again => ?_⟩
    obtain ⟨k, found', spent'⟩ := (collects_iff agrees y h nonzero).mp again
    exact consistent.once y k x m found' found (spent'.trans spent.symm) (spent' ▸ nonzero)

theorem pending_exact_sample : ∃ s, Replay sampleEnv sampleLog s ∧ ∀ d h, s.pending.get ⟨d, h⟩ ≠ none ↔
    (∃ previous balance, StoredAs s h (.sendBlock previous d balance)) ∧ ¬ ∃ x, Collects s x h := by
  obtain ⟨s, replay⟩ := sample_replayed
  exact ⟨s, replay, (pending_exact sampleEnv sample_apart s (replay_reachable replay)).1⟩

end Rai
