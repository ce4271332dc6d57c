import Raiblocks.Replay

set_option autoImplicit false

namespace Rai

open Kit

namespace Lattice

noncomputable def circulating (L : Lattice) : Nat := heads (A := Nat) (· + ·) 0 (fun _ n => n.balance.toNat) L

open Classical in
noncomputable def unclaimed (L : Lattice) (h : Hash) (n : Note) : Nat :=
  if n.block.recipient ≠ none ∧ ¬ L.Received h then n.amount.toNat else 0

noncomputable def uncollected (L : Lattice) : Nat := L.sum L.unclaimed

end Lattice

section Growth

variable {env : Env} {L : Lattice} {h : Hash} {n : Note} [HashesApart env] (consistent : Consistent env L)
  (attach : Attach env L h n)
include consistent attach

theorem circulating_attach_open (opening : n.block.previous = 0) :
    Lattice.circulating (L.put h n) = n.balance.toNat + L.circulating :=
  heads_attach_open consistent attach (A := Nat) (· + ·) 0 (fun _ m => m.balance.toNat) (fun _ m => m.balance.toNat)
    (fun _ _ _ => rfl) opening

theorem circulating_attach_later (before : Note) (stored : L.get n.block.previous = some before) (owner : n.account = before.account) :
    before.balance.toNat + Lattice.circulating (L.put h n) = n.balance.toNat + L.circulating :=
  heads_attach_later consistent attach (A := Nat) (· + ·) 0 (fun _ m => m.balance.toNat) (fun _ m => m.balance.toNat)
    (fun _ _ _ => rfl) Nat.zero_add before stored owner

theorem unclaimed_attached : Lattice.unclaimed (L.put h n) h n = if n.block.recipient ≠ none then n.amount.toNat else 0 := by
  simp [Lattice.unclaimed, received_attached consistent attach]

omit [HashesApart env] consistent in
theorem unclaimed_other (x : Hash) (m : Note) (other : x ≠ n.block.source) :
    Lattice.unclaimed (L.put h n) x m = L.unclaimed x m := by
  have same : Lattice.Received (L.put h n) x ↔ L.Received x := by
    rw [received_attach x attach.fresh]
    exact or_iff_right fun spent => other spent.symm
  unfold Lattice.unclaimed
  by_cases received : L.Received x
  · simp [received, same.mpr received]
  · have still : ¬ Lattice.Received (L.put h n) x := fun again => received (same.mp again)
    simp [received, still]

theorem uncollected_keep (unspending : n.block.source = 0) : Lattice.uncollected (L.put h n) =
    (if n.block.recipient ≠ none then n.amount.toNat else 0) + L.uncollected := by
  have rest : L.sum (Lattice.unclaimed (L.put h n)) = L.uncollected := by
    refine Table.fold_congr _ _ _ L L _ fun x => ?_
    cases found : L.get x with
    | none => rw [Option.map_none, Option.map_none]
    | some m =>
        rw [Option.map_some, Option.map_some, unclaimed_other attach x m]
        rw [unspending]
        exact stored_ne_zero consistent x m found
  rw [Lattice.uncollected, ← rest, ← unclaimed_attached consistent attach]
  exact Table.fold_put_fresh (M := Nat) _ _ _ L h n attach.fresh

theorem uncollected_spend (sent : Note) (account : Account) (sentTo : SentTo L n.block.source account sent)
    (keeps : n.block.recipient = none) : sent.amount.toNat + Lattice.uncollected (L.put h n) = L.uncollected := by
  have nonzero := stored_ne_zero consistent _ sent sentTo.1
  have unspent : ¬ L.Received n.block.source := by
    rintro ⟨c, m, stored, spent⟩
    exact attach.unspent c m stored nonzero spent.symm
  have spent : Lattice.Received (L.put h n) n.block.source := (received_attach _ attach.fresh).mpr (Or.inl rfl)
  have was : L.unclaimed n.block.source sent = sent.amount.toNat := by simp [Lattice.unclaimed, sentTo.2, unspent]
  have gone : Lattice.unclaimed (L.put h n) n.block.source sent = 0 := by simp [Lattice.unclaimed, spent]
  have own : Lattice.unclaimed (L.put h n) h n = 0 := by simp [Lattice.unclaimed, keeps]
  have moved := Table.fold_change (M := Nat) (· + ·) 0 L.unclaimed (Lattice.unclaimed (L.put h n)) L n.block.source sent sentTo.1
    fun x m other _ => (unclaimed_other attach x m other).symm
  rw [was, gone] at moved
  have added : Lattice.uncollected (L.put h n) = Lattice.unclaimed (L.put h n) h n + L.sum (Lattice.unclaimed (L.put h n)) :=
    Table.fold_put_fresh (M := Nat) _ _ _ L h n attach.fresh
  rw [added, own, Nat.zero_add]
  exact moved.trans (Nat.zero_add _)

theorem supply_level (before : Note) (stored : L.get n.block.previous = some before) (owner : n.account = before.account)
    (level : n.balance = before.balance) (unspending : n.block.source = 0) (unsending : n.block.recipient = none) :
    Lattice.circulating (L.put h n) + Lattice.uncollected (L.put h n) = L.circulating + L.uncollected := by
  have moved := circulating_attach_later consistent attach before stored owner
  have kept := uncollected_keep consistent attach unspending
  rw [if_neg (not_not.mpr unsending)] at kept
  rw [level] at moved
  omega

end Growth

theorem latest_le_circulating (L : Lattice) (h : Hash) (n : Note) (latest : L.Latest h n) : n.balance.toNat ≤ L.circulating := by
  have bound := Table.le_sum (fun h n => if L.succ h = 0 then n.balance.toNat else 0) L h n latest.1
  rwa [if_pos latest.2] at bound

theorem unclaimed_le_uncollected (L : Lattice) (h : Hash) (n : Note) (account : Account) (sentTo : SentTo L h account n)
    (unspent : ¬ L.Received h) : n.amount.toNat ≤ L.uncollected := by
  have bound := Table.le_sum L.unclaimed L h n sentTo.1
  have all : L.unclaimed h n = n.amount.toNat := by simp [Lattice.unclaimed, sentTo.2, unspent]
  rwa [all] at bound

-- One more block moves amounts between accounts and the unclaimed sends, and a
-- receipt cannot overflow because both amounts were part of the total before.
theorem supply_attach (env : Env) (L : Lattice) (h : Hash) (n : Note) [HashesApart env] (consistent : Consistent env L)
    (attach : Attach env L h n) (total : L.circulating + L.uncollected = 2 ^ 128 - 1) :
    Lattice.circulating (L.put h n) + Lattice.uncollected (L.put h n) = 2 ^ 128 - 1 := by
  cases fields : n.block.hashables with
  | sendBlock previous destination balance =>
      have entry := attach.entry
      simp only [Entry, fields] at entry
      obtain ⟨before, stored, covered, same⟩ := entry
      have prior : n.block.previous = previous := by simp [Block.previous, fields]
      have value : n.balance = balance := (congrArg Note.balance same :)
      have drop : n.amount.toNat + balance.toNat = before.balance.toNat := by
        rw [(congrArg Note.amount same :)]
        change (before.balance - balance).toNat + balance.toNat = _
        rw [BitVec.toNat_sub_of_le covered]
        exact Nat.sub_add_cancel covered
      have moved := circulating_attach_later consistent attach before (prior ▸ stored) (congrArg Note.account same :)
      have kept := uncollected_keep consistent attach (by simp [Block.source, fields])
      rw [if_pos (by simp [Block.recipient, fields])] at kept
      rw [value] at moved
      omega
  | receiveBlock previous source =>
      have entry := attach.entry
      simp only [Entry, fields] at entry
      obtain ⟨before, sent, stored, sentTo, same⟩ := entry
      have prior : n.block.previous = previous := by simp [Block.previous, fields]
      have spent : n.block.source = source := by simp [Block.source, fields]
      subst prior spent
      have owner : n.account = before.account := (congrArg Note.account same :)
      have moved := circulating_attach_later consistent attach before stored owner
      have taken := uncollected_spend consistent attach sent _ sentTo (by simp [Block.recipient, fields])
      have held := latest_le_circulating L _ before (latest_before consistent attach stored owner)
      have fits : before.balance.toNat + sent.amount.toNat < 2 ^ 128 := by omega
      have value : n.balance.toNat = before.balance.toNat + sent.amount.toNat := by
        rw [(congrArg Note.balance same :)]
        exact BitVec.toNat_add_of_lt fits
      omega
  | openBlock source representative account =>
      have entry := attach.entry
      simp only [Entry, fields] at entry
      obtain ⟨_, _, sent, sentTo, same⟩ := entry
      have spent : n.block.source = source := by simp [Block.source, fields]
      subst spent
      have value : n.balance = sent.amount := (congrArg Note.balance same :)
      have moved := circulating_attach_open consistent attach (by simp [Block.previous, fields])
      have taken := uncollected_spend consistent attach sent _ sentTo (by simp [Block.recipient, fields])
      rw [value] at moved
      omega
  | changeBlock previous representative =>
      have entry := attach.entry
      simp only [Entry, fields] at entry
      obtain ⟨_, before, stored, same⟩ := entry
      have prior : n.block.previous = previous := by simp [Block.previous, fields]
      have kept := supply_level consistent attach before (prior ▸ stored) (congrArg Note.account same :) (congrArg Note.balance same :)
        (by simp [Block.source, fields]) (by simp [Block.recipient, fields])
      exact kept.trans total
  | sendBlockV2 previous destination action =>
      have entry := attach.entry
      simp only [Entry, fields] at entry
      obtain ⟨before, stored, same⟩ := entry
      have prior : n.block.previous = previous := by simp [Block.previous, fields]
      have kept := supply_level consistent attach before (prior ▸ stored) (congrArg Note.account same :) (congrArg Note.balance same :)
        (by simp [Block.source, fields]) (by simp [Block.recipient, fields])
      exact kept.trans total

theorem lattice_supply (env : Env) [HashesApart env] (L : Lattice) (consistent : Consistent env L) :
    L.circulating + L.uncollected = 2 ^ 128 - 1 := by
  apply consistent_induction env _ _ _ L consistent
  · intro stamp
    have issued : Lattice.circulating (genesisLattice env stamp) = genesisAmount.toNat :=
      genesis_heads env stamp (A := Nat) (· + ·) 0 (fun _ n => n.balance.toNat) Nat.add_zero
    have nothing : Lattice.uncollected (genesisLattice env stamp) = 0 := by
      have own : Lattice.unclaimed (genesisLattice env stamp) (genesisHash env) (genesisNote env stamp) = 0 := by
        simp [Lattice.unclaimed, genesisNote, genesisOpen, Block.recipient]
      refine (Table.fold_put_fresh (M := Nat) (· + ·) 0 _ _ _ _ (Table.get_empty _)).trans ?_
      rw [Table.fold_empty]
      exact own
    rw [issued, nothing]
    rfl
  · exact fun L h n consistent attach total => supply_attach env L h n consistent attach total

theorem receipt_fits (env : Env) (L : Lattice) (h : Hash) (n before sent : Note) [HashesApart env] (consistent : Consistent env L)
    (attach : Attach env L h n) (stored : L.get n.block.previous = some before) (owner : n.account = before.account)
    (sentTo : SentTo L n.block.source before.account sent) : before.balance.toNat + sent.amount.toNat < 2 ^ 128 := by
  have unspent : ¬ L.Received n.block.source := by
    rintro ⟨c, m, found, taken⟩
    exact attach.unspent c m found (stored_ne_zero consistent _ sent sentTo.1) taken.symm
  have held := latest_le_circulating L _ before (latest_before consistent attach stored owner)
  have part := unclaimed_le_uncollected L _ sent _ sentTo unspent
  have total := lattice_supply env L consistent
  omega

section Tables

variable {env : Env} {L : Lattice} {s : Store} (consistent : Consistent env L) (agrees : Agrees L s)

include consistent agrees in
theorem accounts_fold [HashesApart env] {A : Type} (op : A → A → A) [Std.Commutative op] [Std.Associative op] (e : A)
    (neutral : ∀ a, op a e = a) (φ : Hash → Hash → Amount → A) :
    s.accounts.fold op e (fun _ info => φ info.head info.repBlock info.balance) =
      Lattice.heads op e (fun h n => φ h n.repBlock n.balance) L := by
  symm
  refine Table.fold_reindex op e neutral s.accounts L _ _ (fun _ n => n.account) ?_ ?_ ?_
  · intro h n stored counted
    have last : L.succ h = 0 := by
      by_contra inner
      exact counted (if_neg inner)
    obtain ⟨time, known⟩ := account_latest consistent agrees h n ⟨stored, last⟩
    exact ⟨_, known, (if_pos last).symm⟩
  · intro h n x m stored present counted counted' owner
    have last : L.succ h = 0 := by
      by_contra inner
      exact counted (if_neg inner)
    have last' : L.succ x = 0 := by
      by_contra inner
      exact counted' (if_neg inner)
    exact latest_unique consistent h x n m stored last present last' owner.symm
  · intro account info found counted
    obtain ⟨h, n, latest, owner, same⟩ := account_owned agrees found
    rw [same] at counted
    exact ⟨h, n, latest.1, by rw [if_pos latest.2]; exact counted, owner⟩

include consistent agrees in
theorem accounts_sum [HashesApart env] (φ : Hash → Hash → Amount → Nat) :
    s.accounts.sum (fun _ info => φ info.head info.repBlock info.balance) =
    Lattice.heads (A := Nat) (· + ·) 0 (fun h n => φ h n.repBlock n.balance) L :=
  accounts_fold consistent agrees (A := Nat) (· + ·) 0 Nat.add_zero φ

include agrees in
theorem pending_sum : s.pending.sum (fun _ info => info.amount.toNat) = L.uncollected := by
  symm
  have sends : ∀ h n, L.unclaimed h n ≠ 0 → ∃ destination, n.block.recipient = some destination ∧ ¬ L.Received h ∧
      L.unclaimed h n = n.amount.toNat := by
    intro h n counted
    unfold Lattice.unclaimed at counted ⊢
    split at counted
    · next waits =>
        obtain ⟨destination, sent⟩ := Option.ne_none_iff_exists'.mp waits.1
        exact ⟨destination, sent, waits.2, if_pos waits⟩
    · exact absurd rfl counted
  refine Table.fold_reindex (M := Nat) (· + ·) 0 Nat.add_zero s.pending L _ _ (fun h n => ⟨n.block.recipient.getD 0, h⟩) ?_ ?_ ?_
  · intro h n stored counted
    obtain ⟨destination, sent, unspent, value⟩ := sends h n counted
    refine ⟨⟨n.account, n.amount⟩, ?_, value.symm⟩
    rw [agrees.pending, sent]
    exact (pending_some_iff _ _).mpr ⟨n, ⟨stored, sent⟩, unspent, rfl⟩
  · exact fun h n x m _ _ _ _ same => congrArg PendingKey.hash same
  · rintro ⟨destination, h⟩ info found counted
    rw [agrees.pending] at found
    obtain ⟨n, sentTo, unspent, rfl⟩ := (pending_some_iff _ _).mp found
    have value : L.unclaimed h n = n.amount.toNat := by simp [Lattice.unclaimed, sentTo.2, unspent]
    refine ⟨h, n, sentTo.1, by rw [value]; exact counted, ?_⟩
    rw [sentTo.2]
    rfl

end Tables

namespace Store

def circulating (s : Store) : Nat := s.accounts.sum fun _ info => info.balance.toNat

def uncollected (s : Store) : Nat := s.pending.sum fun _ info => info.amount.toNat

end Store

theorem supply_total (env : Env) (L : Lattice) (s : Store) [HashesApart env] (consistent : Consistent env L) (agrees : Agrees L s) :
    s.circulating + s.uncollected = 2 ^ 128 - 1 := by
  have circulates : s.circulating = L.circulating := accounts_sum consistent agrees fun _ _ balance => balance.toNat
  have waits : s.uncollected = L.uncollected := pending_sum agrees
  rw [circulates, waits]
  exact lattice_supply env L consistent

-- What is in the accounts and what waits to be received add up to what genesis
-- issued, and neither the amount of a send nor the balance after a receipt wraps.
theorem supply_conserved (env : Env) (apart : HashesApart env) (s : Store) (reached : Reachable env s) :
    s.circulating + s.uncollected = 2 ^ 128 - 1 ∧
    (∀ fuel clock uninit block previous destination balance out, block.hashables = .sendBlock previous destination balance →
      ledgerProcess env fuel clock uninit s block = .ok out → out.2.code = .progress →
      ∃ info, s.accounts.get out.2.account = some info ∧ info.head = previous ∧ out.2.amount = info.balance - balance ∧
        balance.toNat ≤ info.balance.toNat) ∧
    (∀ fuel clock uninit block previous source out, block.hashables = .receiveBlock previous source →
      ledgerProcess env fuel clock uninit s block = .ok out → out.2.code = .progress →
      ∃ info pending info', s.accounts.get out.2.account = some info ∧ info.head = previous ∧
        s.pending.get ⟨out.2.account, source⟩ = some pending ∧ out.1.accounts.get out.2.account = some info' ∧
        info'.balance = info.balance + pending.amount ∧ info.balance.toNat + pending.amount.toNat < 2 ^ 128) := by
  obtain ⟨L, consistent, agrees⟩ := reachable_agrees reached
  refine ⟨supply_total env L s consistent agrees, ?_, ?_⟩
  · intro fuel clock uninit block previous destination balance out fields returned progress
    obtain ⟨n, accepted⟩ := processed_progress clock out consistent agrees returned progress
    have entry := accepted.attach.entry
    rw [← accepted.carries] at fields
    simp only [Entry, fields] at entry
    obtain ⟨before, stored, covered, same⟩ := entry
    have prior : n.block.previous = previous := by simp [Block.previous, fields]
    have owner : n.account = before.account := (congrArg Note.account same :)
    obtain ⟨time, known⟩ := account_latest consistent agrees _ before
      (latest_before consistent accepted.attach (prior ▸ stored) owner)
    rw [accepted.account, owner, accepted.amount (by simp [← accepted.carries, Block.kind, fields])]
    exact ⟨_, known, prior, (congrArg Note.amount same :), covered⟩
  · intro fuel clock uninit block previous source out fields returned progress
    obtain ⟨n, accepted⟩ := processed_progress clock out consistent agrees returned progress
    have entry := accepted.attach.entry
    have grown := consistent_attach consistent accepted.attach
    rw [← accepted.carries] at fields
    simp only [Entry, fields] at entry
    obtain ⟨before, sent, stored, sentTo, same⟩ := entry
    have prior : n.block.previous = previous := by simp [Block.previous, fields]
    have spent : n.block.source = source := by simp [Block.source, fields]
    have owner : n.account = before.account := (congrArg Note.account same :)
    have latest := latest_before consistent accepted.attach (prior ▸ stored) owner
    have unspent : ¬ L.Received source := by
      rintro ⟨c, m, found, taken⟩
      refine accepted.attach.unspent c m found ?_ (spent.trans taken.symm)
      rw [spent]
      exact stored_ne_zero consistent source sent sentTo.1
    obtain ⟨time, known⟩ := account_latest consistent agrees _ before latest
    obtain ⟨time', known'⟩ := account_latest grown accepted.agrees _ n (latest_attached consistent accepted.attach)
    have waiting : s.pending.get ⟨before.account, source⟩ = some ⟨sent.account, sent.amount⟩ := by
      rw [agrees.pending]
      exact (pending_some_iff _ _).mpr ⟨sent, sentTo, unspent, rfl⟩
    rw [accepted.account]
    refine ⟨before.info _ time, ⟨sent.account, sent.amount⟩, n.info _ time', owner ▸ known, prior, owner ▸ waiting, known',
      (congrArg Note.balance same :), ?_⟩
    exact receipt_fits env L _ n before sent consistent accepted.attach (prior ▸ stored) owner (spent ▸ sentTo)

def sampleSendAgain : Block := ⟨.sendBlock (sampleSend.hash sampleEnv) (sampleKey 1) 2, 0, 0⟩

def sampleReceive : Block := ⟨.receiveBlock (sampleOpen.hash sampleEnv) (sampleSendAgain.hash sampleEnv), 0, 0⟩

theorem supply_conserved_sample : ∃ s out,
    Replay sampleEnv [sampleSend, sampleOpen, sampleSendAgain] s ∧ s.circulating + s.uncollected = 2 ^ 128 - 1 ∧
    (∃ fuel clock uninit, ledgerProcess sampleEnv fuel clock uninit s sampleReceive = .ok out) ∧
    ∃ info pending info', s.accounts.get out.2.account = some info ∧ info.head = sampleOpen.hash sampleEnv ∧
      s.pending.get ⟨out.2.account, sampleSendAgain.hash sampleEnv⟩ = some pending ∧ out.1.accounts.get out.2.account = some info' ∧
      info'.balance = info.balance + pending.amount ∧ info.balance.toNat + pending.amount.toNat < 2 ^ 128 := by
  obtain ⟨t, _, whole⟩ := replay_all_replays sampleEnv 20 ([sampleSend, sampleOpen, sampleSendAgain] ++ [sampleReceive])
    (by decide +kernel)
  obtain ⟨fuel, clock, uninit, s, out, replay, returned, progress, _⟩ := replay_last sampleEnv _ _ t whole
  obtain ⟨total, _, receives⟩ := supply_conserved sampleEnv sample_apart s (replay_reachable replay)
  exact ⟨s, out, replay, total, ⟨fuel, clock, uninit, returned⟩,
    receives fuel clock uninit sampleReceive _ _ out rfl returned progress⟩

end Rai
