import Raiblocks.Chains

set_option autoImplicit false

namespace Rai

open Kit

inductive LedgerStep (env : Env) (allowed : Block → Prop) : Store → Store → Prop where
  | process (fuel : Nat) (clock : Hash → Nat) (uninit : ProcessReturn) (s : Store) (block : Block) (out : Store × ProcessReturn)
      (permitted : allowed block) (returned : ledgerProcess env fuel clock uninit s block = .ok out) : LedgerStep env allowed s out.1
  | rollback (fuel : Nat) (clock : Hash → Nat) (s : Store) (h : Hash) (s' : Store) (stored : blockExists s h = true)
      (later : h ≠ genesisHash env) (returned : ledgerRollback env clock fuel s h = .ok s') : LedgerStep env allowed s s'

inductive History (env : Env) (allowed : Block → Prop) : List Store → Store → Prop where
  | genesis (now : Nat) (s : Store) (started : genesisInitialize env Store.fresh now = .ok s) : History env allowed [] s
  | step (past : List Store) (s s' : Store) (before : History env allowed past s) (moved : LedgerStep env allowed s s') :
      History env allowed (s :: past) s'

def since (h : Hash) (past : List Store) (now : Store) : List Store := now :: past.takeWhile fun s => blockExists s h

-- `account` has been the owner of `h` since it was stored, and held `balance` whenever `h` was its head.
structure HeldAt (past : List Store) (now : Store) (h : Hash) (account : Account) (balance : Amount) : Prop where
  once : ∃ s ∈ since h past now, ∃ info, s.accounts.get account = some info ∧ info.head = h
  always : ∀ s ∈ since h past now, ∀ owner info, s.accounts.get owner = some info → info.head = h →
    owner = account ∧ info.balance = balance

theorem since_step (h : Hash) (past : List Store) (s s' : Store) (stored : blockExists s h = true) :
    since h (s :: past) s' = s' :: since h past s := by
  simp only [since, List.takeWhile_cons, stored, if_true]

theorem since_new (h : Hash) (past : List Store) (s s' : Store) (fresh : blockExists s h = false) :
    since h (s :: past) s' = [s'] := by
  simp [since, fresh]

structure Moves (env : Env) (allowed : Block → Prop) (L K : Lattice) (s' : Store) : Prop where
  consistent : Consistent env K
  agrees : Agrees K s'
  kept : ∀ h n, K.get h = some n → L.get h = some n ∨ L.get h = none ∧ K.Latest h n ∧ allowed n.block

structure Remembers (env : Env) (allowed : Block → Prop) (past : List Store) (s : Store) (L : Lattice) : Prop where
  consistent : Consistent env L
  agrees : Agrees L s
  permitted : ∀ h n, L.get h = some n → n.block.kind = .openBlock ∨ allowed n.block
  once : ∀ h n, L.get h = some n → ∃ t ∈ since h past s, ∃ info, t.accounts.get n.account = some info ∧ info.head = h
  carried : ∀ h n, L.get h = some n → ∀ t ∈ since h past s, ∃ K, Consistent env K ∧ Agrees K t ∧ K.get h = some n

theorem remembers_legacy (env : Env) (past : List Store) (s : Store) (L : Lattice)
    (remembers : Remembers env (fun block => block.kind ≠ .sendBlockV2) past s L) : Legacy L := by
  intro h n stored
  obtain opening | plain := remembers.permitted h n stored
  · rw [opening]
    exact Kind.noConfusion
  · exact plain

section Runs

variable {env : Env} {allowed : Block → Prop} [HashesApart env]

theorem step_moves (L : Lattice) (s s' : Store) (consistent : Consistent env L) (agrees : Agrees L s)
    (moved : LedgerStep env allowed s s') : ∃ K, Moves env allowed L K s' := by
  cases moved with
  | process fuel clock uninit s block out permitted returned =>
      obtain ⟨n, accepted⟩ | ⟨same, _⟩ := process_returned clock out consistent agrees returned
      · refine ⟨_, consistent_attach consistent accepted.attach, accepted.agrees, ?_⟩
        intro h m stored
        obtain ⟨rfl, rfl⟩ | old := Table.put_some L _ h n m stored
        · exact Or.inr ⟨accepted.attach.fresh, latest_attached consistent accepted.attach, accepted.carries ▸ permitted⟩
        · exact Or.inl old
      · rw [same]
        exact ⟨L, consistent, agrees, fun h n stored => Or.inl stored⟩
  | rollback fuel clock s h s' stored later returned =>
      obtain ⟨K, cut⟩ := rollback_returned clock consistent agrees stored later returned
      exact ⟨K, cut.consistent, cut.becomes.agrees, fun x n found => Or.inl (cut.below x n found)⟩

theorem latest_head (K : Lattice) (s : Store) (h : Hash) (n : Note) (consistent : Consistent env K) (agrees : Agrees K s)
    (latest : K.Latest h n) : ∃ info, s.accounts.get n.account = some info ∧ info.head = h := by
  obtain ⟨time, known⟩ := account_latest consistent agrees h n latest
  exact ⟨_, known, rfl⟩

theorem history_remembers (past : List Store) (s : Store) (history : History env allowed past s) :
    ∃ L, Remembers env allowed past s L := by
  induction history with
  | genesis now s started =>
      have agrees := (genesis_started started).agrees
      have consistent := consistent_genesis env (genesisStamp env.network)
      have only : ∀ h t, t ∈ since h [] s → t = s := fun h t member => List.mem_singleton.mp member
      refine ⟨_, consistent, agrees, ?_, ?_, ?_⟩ <;> intro h n stored
      · obtain ⟨_, rfl⟩ := genesis_stored _ stored
        exact Or.inl rfl
      · obtain ⟨rfl, rfl⟩ := genesis_stored _ stored
        have latest := (genesis_latest env (genesisStamp env.network) _ _).mpr ⟨rfl, rfl⟩
        exact ⟨s, List.mem_cons_self, latest_head _ s _ _ consistent agrees latest⟩
      · intro t member
        rw [only h t member]
        exact ⟨_, consistent, agrees, stored⟩
  | step past s s' _ moved ih =>
      obtain ⟨L, before⟩ := ih
      obtain ⟨K, moves⟩ := step_moves L s s' before.consistent before.agrees moved
      refine ⟨K, moves.consistent, moves.agrees, ?_, ?_, ?_⟩ <;> intro h n stored
      all_goals obtain old | ⟨absent, latest, permitted⟩ := moves.kept h n stored
      · exact before.permitted h n old
      · exact Or.inr permitted
      · obtain ⟨t, member, head⟩ := before.once h n old
        rw [since_step h past s s' (exists_stored before.agrees.blocks old)]
        exact ⟨t, List.mem_cons_of_mem _ member, head⟩
      · exact ⟨s', List.mem_cons_self, latest_head K s' h n moves.consistent moves.agrees latest⟩
      · rw [since_step h past s s' (exists_stored before.agrees.blocks old)]
        intro t member
        obtain rfl | earlier := List.mem_cons.mp member
        · exact ⟨K, moves.consistent, moves.agrees, stored⟩
        · exact before.carried h n old t earlier
      · rw [since_new h past s s' (exists_absent before.agrees.blocks h absent)]
        intro t member
        rw [List.mem_singleton.mp member]
        exact ⟨K, moves.consistent, moves.agrees, stored⟩

omit [HashesApart env] in
theorem remembers_held (past : List Store) (s : Store) (L : Lattice) (remembers : Remembers env allowed past s L) (h : Hash) (n : Note)
    (stored : L.get h = some n) : HeldAt past s h n.account n.balance := by
  refine ⟨remembers.once h n stored, ?_⟩
  intro t member owner info known head
  obtain ⟨K, consistent, agrees, carried⟩ := remembers.carried h n stored t member
  obtain ⟨x, m, latest, owned, same⟩ := account_owned agrees known
  rw [same] at head ⊢
  have here : x = h := head
  subst here
  cases carried.symm.trans latest.1
  exact ⟨owned.symm, rfl⟩

end Runs

theorem replay_history {env : Env} (allowed : Block → Prop) {log : List Block} {s : Store} (permitted : ∀ block ∈ log, allowed block)
    (replay : Replay env log s) : ∃ past, History env allowed past s := by
  induction replay with
  | genesis now s started => exact ⟨[], History.genesis now s started⟩
  | process fuel clock uninit log s block out _ returned _ ih =>
      obtain ⟨past, history⟩ := ih fun b member => permitted b (List.mem_append_left _ member)
      exact ⟨_, History.step past s out.1 history (LedgerStep.process fuel clock uninit s block out
        (permitted block (by simp)) returned)⟩

end Rai
