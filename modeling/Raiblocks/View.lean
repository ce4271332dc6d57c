import Mathlib.Data.BitVec
import Mathlib.Tactic.Simps.Basic
import Raiblocks.Attach
import Raiblocks.Store

set_option autoImplicit false

namespace Rai

open Kit

-- What each table should hold for a given lattice, and how that changes when a block is attached.
@[simps] def Note.info (n : Note) (h : Hash) (time : Nat) : AccountInfo := ⟨h, n.repBlock, n.openBlock, n.balance, time, n.height⟩

namespace Lattice

def Latest (L : Lattice) (h : Hash) (n : Note) : Prop := L.get h = some n ∧ L.succ h = 0

open Classical in
noncomputable def info (L : Lattice) (account : Account) : Option AccountInfo :=
  if owned : ∃ i h n, L.Latest h n ∧ n.account = account ∧ i = n.info h 0 then some owned.choose else none

noncomputable def frontier (L : Lattice) (x : Hash) : Option Account :=
  match L.get x with
  | some n => if L.succ x = 0 then some n.account else none
  | none => none

open Classical in
noncomputable def pending (L : Lattice) (key : PendingKey) : Option PendingInfo :=
  match L.get key.hash with
  | some n =>
      if n.block.recipient = some key.account ∧ ¬ L.Received key.hash then some ⟨n.account, n.amount⟩ else none
  | none => none

def checkpoint (L : Lattice) (x : Hash) : Option BlockInfo :=
  match L.get x with
  | some n => if n.height % blockInfoMax = 0 then some ⟨n.account, n.balance⟩ else none
  | none => none

noncomputable def heads {A : Type} (op : A → A → A) [Std.Commutative op] [Std.Associative op] (e : A) (f : Hash → Note → A)
    (L : Lattice) : A :=
  L.fold op e fun h n => if L.succ h = 0 then f h n else e

def share (L : Lattice) (r : Account) (n : Note) : Amount := if L.rep n.repBlock = r then n.balance else 0

noncomputable def weight (L : Lattice) (r : Account) : Amount := heads (· + ·) 0 (fun _ n => L.share r n) L

noncomputable def digest (L : Lattice) : Hash := heads (· ^^^ ·) 0 (fun h _ => h) L

end Lattice

section Reading

variable {env : Env} {L : Lattice} (consistent : Consistent env L)

include consistent in
theorem info_latest [HashesApart env] (h : Hash) (n : Note) (latest : L.Latest h n) : L.info n.account = some (n.info h 0) := by
  have owned : ∃ i h' m, L.Latest h' m ∧ m.account = n.account ∧ i = m.info h' 0 := ⟨_, h, n, latest, rfl, rfl⟩
  obtain ⟨h', m, latest', owner, same⟩ := owned.choose_spec
  have head := latest_unique consistent h h' n m latest.1 latest.2 latest'.1 latest'.2 owner
  subst head
  cases latest.1.symm.trans latest'.1
  rw [Lattice.info, dif_pos owned, same]

theorem info_some (account : Account) (i : AccountInfo) (found : L.info account = some i) :
    ∃ h n, L.Latest h n ∧ n.account = account ∧ i = n.info h 0 := by
  unfold Lattice.info at found
  split at found
  · next owned =>
      cases found
      exact owned.choose_spec
  · cases found

theorem info_none (account : Account) (unowned : ∀ h n, L.get h = some n → n.account ≠ account) : L.info account = none := by
  cases found : L.info account with
  | none => rfl
  | some i =>
      obtain ⟨h, n, latest, owner, _⟩ := info_some account i found
      exact absurd owner (unowned h n latest.1)

theorem frontier_some_iff (x : Hash) (account : Account) :
    L.frontier x = some account ↔ ∃ n, L.Latest x n ∧ n.account = account := by
  unfold Lattice.frontier Lattice.Latest
  cases L.get x with
  | none => simp
  | some n =>
      by_cases last : L.succ x = 0 <;> simp [last]

theorem pending_some_iff (key : PendingKey) (info : PendingInfo) :
    L.pending key = some info ↔ ∃ n, SentTo L key.hash key.account n ∧ ¬ L.Received key.hash ∧ info = ⟨n.account, n.amount⟩ := by
  unfold Lattice.pending SentTo
  cases L.get key.hash with
  | none => simp
  | some n => simp [and_assoc, eq_comm]

theorem checkpoint_some_iff (x : Hash) (info : BlockInfo) :
    L.checkpoint x = some info ↔ ∃ n, L.get x = some n ∧ n.height % blockInfoMax = 0 ∧ info = ⟨n.account, n.balance⟩ := by
  unfold Lattice.checkpoint
  cases L.get x with
  | none => simp
  | some n => by_cases due : n.height % blockInfoMax = 0 <;> simp [due, eq_comm]

end Reading

section Growth

variable {env : Env} {L : Lattice} {h : Hash} {n : Note} [HashesApart env] (consistent : Consistent env L)
  (attach : Attach env L h n)
include consistent attach

theorem latest_attached : Lattice.Latest (L.put h n) h n := by
  refine ⟨Table.get_put_self L h n, ?_⟩
  rw [succ_attach consistent attach h (attach_nonzero attach), if_neg (attach_previous_ne attach).symm]
  exact succ_attached consistent attach

theorem latest_attach (x : Hash) (m : Note) :
    Lattice.Latest (L.put h n) x m ↔ x = h ∧ m = n ∨ L.Latest x m ∧ x ≠ n.block.previous := by
  by_cases new : x = h
  · subst new
    constructor
    · rintro ⟨stored, _⟩
      rw [Table.get_put_self] at stored
      exact Or.inl ⟨rfl, (Option.some.inj stored).symm⟩
    · rintro (⟨_, rfl⟩ | ⟨latest, _⟩)
      · exact latest_attached consistent attach
      · have stored := latest.1
        rw [attach.fresh] at stored
        cases stored
  · unfold Lattice.Latest
    rw [Table.get_put_ne L h x n new]
    constructor
    · rintro ⟨stored, last⟩
      rw [succ_attach consistent attach x (stored_ne_zero consistent x m stored)] at last
      split at last
      · exact absurd last (attach_nonzero attach)
      · next other => exact Or.inr ⟨⟨stored, last⟩, other⟩
    · rintro (⟨same, _⟩ | ⟨⟨stored, last⟩, other⟩)
      · exact absurd same new
      · refine ⟨stored, ?_⟩
        rw [succ_attach consistent attach x (stored_ne_zero consistent x m stored), if_neg other]
        exact last

theorem unowned_attach (opening : n.block.previous = 0) (x : Hash) (m : Note) (stored : L.get x = some m) :
    m.account ≠ n.account := by
  intro owner
  have positive := height_pos consistent stored
  obtain ⟨y, k, found, mate, level, _⟩ := ancestor_at consistent x m 1 stored Nat.one_pos positive
  have bottom := (open_height consistent found).mp level
  exact attach.latest y k found (owner.symm.trans mate.symm) (opening.trans bottom.symm)

theorem latest_before {before : Note} (stored : L.get n.block.previous = some before) (owner : n.account = before.account) :
    L.Latest n.block.previous before :=
  ⟨stored, succ_before consistent attach before stored owner⟩

theorem info_attach (account : Account) :
    Lattice.info (L.put h n) account = if account = n.account then some (n.info h 0) else L.info account := by
  have grown := consistent_attach consistent attach
  split
  · next owner =>
      subst owner
      exact info_latest grown h n (latest_attached consistent attach)
  · next other =>
      cases found : L.info account with
      | none =>
          cases found' : Lattice.info (L.put h n) account with
          | none => rfl
          | some i =>
              obtain ⟨x, m, latest, owner, _⟩ := info_some account i found'
              obtain ⟨_, rfl⟩ | ⟨old, _⟩ := (latest_attach consistent attach x m).mp latest
              · exact absurd owner.symm other
              · rw [← owner, info_latest consistent x m old] at found
                cases found
      | some i =>
          obtain ⟨x, m, latest, owner, same⟩ := info_some account i found
          have kept : x ≠ n.block.previous := by
            rintro rfl
            obtain ⟨before, stored, follows⟩ := entry_before attach.entry fun opening =>
              stored_ne_zero consistent _ m latest.1 (open_previous n.block opening)
            cases latest.1.symm.trans stored
            exact other (owner.symm.trans follows.account.symm)
          rw [← owner, info_latest grown x m ((latest_attach consistent attach x m).mpr (Or.inr ⟨latest, kept⟩)), same]

theorem frontier_attach (x : Hash) : Lattice.frontier (L.put h n) x =
    if x = h then some n.account else if x = n.block.previous then none else L.frontier x := by
  apply Option.ext
  intro account
  rw [frontier_some_iff]
  simp only [latest_attach consistent attach]
  by_cases new : x = h
  · subst new
    rw [if_pos rfl]
    constructor
    · rintro ⟨m, ⟨_, rfl⟩ | ⟨latest, _⟩, owner⟩
      · rw [owner]
      · have stored := latest.1
        rw [attach.fresh] at stored
        cases stored
    · intro same
      cases same
      exact ⟨n, Or.inl ⟨rfl, rfl⟩, rfl⟩
  · rw [if_neg new]
    by_cases covered : x = n.block.previous
    · simp [covered, attach_previous_ne attach]
    · rw [if_neg covered, frontier_some_iff]
      simp [new, covered]

omit [HashesApart env] consistent in
theorem checkpoint_attach (x : Hash) : Lattice.checkpoint (L.put h n) x =
    if x = h ∧ n.height % blockInfoMax = 0 then some ⟨n.account, n.balance⟩ else L.checkpoint x := by
  unfold Lattice.checkpoint
  rw [Table.get_put]
  by_cases new : x = h
  · subst new
    by_cases due : n.height % blockInfoMax = 0 <;> simp [due, attach.fresh]
  · simp [new]

theorem received_attached : ¬ Lattice.Received (L.put h n) h := by
  rw [received_attach h attach.fresh]
  rintro (spent | ⟨c, m, stored, spent⟩)
  · exact attach_source_ne attach spent
  · exact (attach_unnamed consistent attach c m stored).2 spent

theorem pending_attach (key : PendingKey) : Lattice.pending (L.put h n) key =
    if key.hash = h then (if n.block.recipient = some key.account then some ⟨n.account, n.amount⟩ else none)
    else if key.hash = n.block.source then none else L.pending key := by
  by_cases new : key.hash = h
  · have unspent := received_attached consistent attach
    rw [if_pos new, Lattice.pending, new, Table.get_put_self]
    simp [unspent]
  · rw [if_neg new, Lattice.pending, Lattice.pending, Table.get_put_ne L h key.hash n new]
    cases found : L.get key.hash with
    | none => simp
    | some m =>
        by_cases spent : key.hash = n.block.source
        · have received : Lattice.Received (L.put h n) key.hash := (received_attach key.hash attach.fresh).mpr (Or.inl spent.symm)
          rw [if_pos spent]
          simp [received]
        · have same : Lattice.Received (L.put h n) key.hash ↔ L.Received key.hash := by
            rw [received_attach key.hash attach.fresh]
            exact or_iff_right fun spent' => spent spent'.symm
          rw [if_neg spent]
          by_cases received : L.Received key.hash
          · simp [received, same.mpr received]
          · have still : ¬ Lattice.Received (L.put h n) key.hash := fun again => received (same.mp again)
            simp [received, still]

section Heads

variable {A : Type} (op : A → A → A) [Std.Commutative op] [Std.Associative op] (e : A) (f g : Hash → Note → A)
  (same : ∀ x m, L.get x = some m → g x m = f x m)
include same

theorem heads_attach_open (opening : n.block.previous = 0) :
    Lattice.heads op e g (L.put h n) = op (g h n) (Lattice.heads op e f L) := by
  have rest : L.fold op e (fun x m => if Lattice.succ (L.put h n) x = 0 then g x m else e) = Lattice.heads op e f L := by
    rw [Lattice.heads]
    refine Table.fold_congr op e _ L L _ fun x => ?_
    cases found : L.get x with
    | none => rw [Option.map_none, Option.map_none]
    | some m =>
        have nonzero := stored_ne_zero consistent x m found
        have other : x ≠ n.block.previous := fun covered => nonzero (covered.trans opening)
        rw [Option.map_some, Option.map_some, succ_attach consistent attach x nonzero, if_neg other, same x m found]
  rw [Lattice.heads, Table.fold_put_fresh op e _ L h n attach.fresh, if_pos (latest_attached consistent attach).2, rest]

theorem heads_attach_later (unit : ∀ a, op e a = a) (before : Note) (stored : L.get n.block.previous = some before)
    (owner : n.account = before.account) :
    op (f n.block.previous before) (Lattice.heads op e g (L.put h n)) = op (g h n) (Lattice.heads op e f L) := by
  have nonzero := stored_ne_zero consistent _ before stored
  have moved := Table.fold_change op e (fun x m => if L.succ x = 0 then f x m else e)
    (fun x m => if Lattice.succ (L.put h n) x = 0 then g x m else e) L n.block.previous before stored (by
      intro x m other found
      rw [succ_attach consistent attach x (stored_ne_zero consistent x m found), if_neg other, same x m found])
  rw [if_pos (succ_before consistent attach before stored owner), succ_attach consistent attach _ nonzero,
    if_pos rfl, if_neg (attach_nonzero attach), unit] at moved
  rw [Lattice.heads, Table.fold_put_fresh op e _ L h n attach.fresh, if_pos (latest_attached consistent attach).2]
  exact (LeftCommutative.left_comm _ _ _).trans (congrArg (op (g h n)) moved)

end Heads

theorem share_attach (r : Account) (x : Hash) (m : Note) (stored : L.get x = some m) :
    Lattice.share (L.put h n) r m = L.share r m := by
  obtain ⟨k, found, _⟩ := rep_block_stored consistent stored
  rw [Lattice.share, Lattice.share, rep_below _ (below_put L h n attach.fresh) m.repBlock k found]

theorem weight_attach_open (r : Account) (opening : n.block.previous = 0) :
    Lattice.weight (L.put h n) r = L.weight r + Lattice.share (L.put h n) r n := by
  rw [Lattice.weight, heads_attach_open consistent attach _ _ (fun _ m => L.share r m) _
    (share_attach consistent attach r) opening, BitVec.add_comm]
  rfl

theorem weight_attach_later (r : Account) (before : Note) (stored : L.get n.block.previous = some before)
    (owner : n.account = before.account) :
    Lattice.weight (L.put h n) r = L.weight r - L.share r before + Lattice.share (L.put h n) r n := by
  have moved := heads_attach_later consistent attach (· + ·) (0 : Amount) (fun _ m => L.share r m)
    (fun _ m => Lattice.share (L.put h n) r m) (share_attach consistent attach r) BitVec.zero_add before stored owner
  change L.share r before + Lattice.weight (L.put h n) r = Lattice.share (L.put h n) r n + L.weight r at moved
  calc Lattice.weight (L.put h n) r = L.share r before + Lattice.weight (L.put h n) r - L.share r before := by ring
    _ = L.weight r - L.share r before + Lattice.share (L.put h n) r n := by rw [moved]; ring

theorem digest_attach_open (opening : n.block.previous = 0) : Lattice.digest (L.put h n) = L.digest ^^^ h := by
  rw [Lattice.digest, heads_attach_open consistent attach _ _ (fun x _ => x) _ (fun _ _ _ => rfl) opening,
    BitVec.xor_comm]
  rfl

theorem digest_attach_later (before : Note) (stored : L.get n.block.previous = some before)
    (owner : n.account = before.account) : Lattice.digest (L.put h n) = L.digest ^^^ n.block.previous ^^^ h := by
  have moved := heads_attach_later consistent attach (A := Hash) (· ^^^ ·) 0 (fun x _ => x) (fun x _ => x)
    (fun _ _ _ => rfl) (fun _ => BitVec.zero_xor) before stored owner
  change n.block.previous ^^^ Lattice.digest (L.put h n) = h ^^^ L.digest at moved
  calc Lattice.digest (L.put h n) = n.block.previous ^^^ (n.block.previous ^^^ Lattice.digest (L.put h n)) := by
        rw [← BitVec.xor_assoc, BitVec.xor_self, BitVec.zero_xor]
    _ = L.digest ^^^ n.block.previous ^^^ h := by
        rw [moved, BitVec.xor_comm h, ← BitVec.xor_assoc, BitVec.xor_comm n.block.previous]

end Growth

end Rai
