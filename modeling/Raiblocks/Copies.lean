import Raiblocks.Agree

set_option autoImplicit false

namespace Rai

open Kit

-- A note without the signature and the work of its block: the ledger computes nothing from those.
def Note.bare (n : Note) : Note := { n with block := ⟨n.block.hashables, 0, 0⟩ }

def SameBare (L M : Lattice) : Prop := ∀ x, (L.get x).map Note.bare = (M.get x).map Note.bare

theorem same_bare_symm (L M : Lattice) (same : SameBare L M) : SameBare M L := fun x => (same x).symm

theorem bare_with (n m : Note) (bare : m.bare = n.bare) : m = { n with block := m.block } := by
  cases n
  cases m
  simp only [Note.bare, Note.mk.injEq] at bare ⊢
  exact ⟨trivial, bare.2⟩

theorem follow_bare (n m before before' : Note) (balance amount : Amount) (bare : m.bare = n.bare) (bare' : before'.bare = before.bare)
    (follows : n = before.follow n.block balance amount) : m = before'.follow m.block balance amount := by
  calc m = { n with block := m.block } := bare_with n m bare
    _ = before.follow m.block balance amount := congrArg (fun k : Note => { k with block := m.block }) follows
    _ = before'.follow m.block balance amount := by
        rw [bare_with before before' bare']
        rfl

theorem choose_congr {A B : Type} (P Q : A → Prop) (f : A → B) (e : B) (same : ∀ a, P a ↔ Q a) [Decidable (∃ a, P a)]
    [Decidable (∃ a, Q a)] : (if found : ∃ a, P a then f found.choose else e) = if found : ∃ a, Q a then f found.choose else e := by
  obtain rfl : P = Q := funext fun a => propext (same a)
  congr

section Views

variable {L M : Lattice} (same : SameBare L M)
include same

theorem bare_map {A : Type} (g : Note → A) (factors : ∀ n, g n = g n.bare) (x : Hash) : (L.get x).map g = (M.get x).map g := by
  have through : g = g ∘ Note.bare := funext factors
  rw [through, ← Option.map_map, ← Option.map_map, same x]

theorem bare_stored (x : Hash) (n : Note) (stored : L.get x = some n) : ∃ m, M.get x = some m ∧ m.bare = n.bare := by
  have here := same x
  rw [stored, Option.map_some] at here
  exact Option.map_eq_some_iff.mp here.symm

theorem bare_exists (P : Note → Prop) (factors : ∀ n, P n ↔ P n.bare) (x : Hash) :
    (∃ n, L.get x = some n ∧ P n) ↔ ∃ n, M.get x = some n ∧ P n := by
  have through : ∀ N : Lattice, (∃ n, N.get x = some n ∧ P n) ↔ ((N.get x).map P).getD False := by
    intro N
    cases N.get x <;> simp
  rw [through L, through M, bare_map same P (fun n => propext (factors n)) x]

theorem succ_bare (h : Hash) : L.succ h = M.succ h :=
  choose_congr _ _ id 0 fun c => bare_exists same (fun n => n.block.previous = h) (fun _ => Iff.rfl) c

theorem received_bare (h : Hash) : L.Received h ↔ M.Received h :=
  exists_congr fun c => bare_exists same (fun n => n.block.source = h) (fun _ => Iff.rfl) c

theorem rep_bare (h : Hash) : L.rep h = M.rep h :=
  congrArg (fun found => Option.getD found 0) (bare_map same (fun n => n.block.representative) (fun _ => rfl) h)

open Classical in
theorem info_bare (account : Account) : L.info account = M.info account := by
  have owned : ∀ i h, (∃ n, L.Latest h n ∧ n.account = account ∧ i = n.info h 0) ↔
      ∃ n, M.Latest h n ∧ n.account = account ∧ i = n.info h 0 := by
    intro i h
    simp only [Lattice.Latest, succ_bare same h, and_assoc]
    exact bare_exists same (fun n => M.succ h = 0 ∧ n.account = account ∧ i = n.info h 0) (fun _ => Iff.rfl) h
  exact choose_congr _ _ some none fun i => exists_congr (owned i)

theorem frontier_bare (x : Hash) : L.frontier x = M.frontier x := by
  apply Option.ext
  intro account
  rw [frontier_some_iff, frontier_some_iff]
  simp only [Lattice.Latest, succ_bare same x, and_assoc]
  exact bare_exists same (fun n => M.succ x = 0 ∧ n.account = account) (fun _ => Iff.rfl) x

theorem pending_bare (key : PendingKey) : L.pending key = M.pending key := by
  apply Option.ext
  intro info
  rw [pending_some_iff, pending_some_iff]
  simp only [SentTo, received_bare same key.hash, and_assoc]
  exact bare_exists same (fun n => n.block.recipient = some key.account ∧ ¬ M.Received key.hash ∧ info = ⟨n.account, n.amount⟩)
    (fun _ => Iff.rfl) key.hash

theorem checkpoint_bare (x : Hash) : L.checkpoint x = M.checkpoint x := by
  apply Option.ext
  intro info
  rw [checkpoint_some_iff, checkpoint_some_iff]
  exact bare_exists same (fun n => n.height % blockInfoMax = 0 ∧ info = ⟨n.account, n.balance⟩) (fun _ => Iff.rfl) x

theorem heads_bare {A : Type} (op : A → A → A) [Std.Commutative op] [Std.Associative op] (e : A) (f g : Hash → Note → A)
    (factors : ∀ x n, f x n = g x n.bare) (within : ∀ x n, g x n = g x n.bare) : Lattice.heads op e f L = Lattice.heads op e g M := by
  refine Table.fold_congr op e _ L M _ fun x => ?_
  have here := bare_map same (fun n => if M.succ x = 0 then g x n else e) (fun n => by rw [within x n]) x
  simp only [succ_bare same x, factors, ← within]
  exact here

theorem weight_bare (r : Account) : L.weight r = M.weight r := by
  refine heads_bare same (· + ·) (0 : Amount) _ _ ?_ fun _ _ => rfl
  intro _ n
  rw [Lattice.share, Lattice.share, rep_bare same]
  rfl

theorem digest_bare : L.digest = M.digest := heads_bare same (A := Hash) (· ^^^ ·) 0 _ _ (fun _ _ => rfl) fun _ _ => rfl

theorem agrees_bare (s : Store) (blocks : Kind → Table Hash Bytes) (agrees : Agrees L s) (holds : BlocksHold M M.succ blocks) :
    Agrees M { s with blocks := blocks } := by
  refine ⟨holds, ?_, ?_, ?_, ?_, ?_, ?_⟩
  · exact fun account => (agrees.accounts account).trans (info_bare same account)
  · exact fun x => (agrees.frontiers x).trans (frontier_bare same x)
  · exact fun key => (agrees.pending key).trans (pending_bare same key)
  · exact fun x => (agrees.checkpoints x).trans (checkpoint_bare same x)
  · exact fun r => (agrees.weights r).trans (weight_bare same r)
  · exact digest_bare same ▸ agrees.checksum

theorem sent_to_bare (source : Hash) (destination : Account) (sent : Note) (sentTo : SentTo L source destination sent) :
    ∃ other, SentTo M source destination other ∧ other.amount = sent.amount := by
  obtain ⟨other, stored, bare⟩ := bare_stored same source sent sentTo.1
  refine ⟨other, ⟨stored, ?_⟩, (congrArg Note.amount bare :)⟩
  exact (congrArg (fun n => n.block.recipient) bare :).trans sentTo.2

theorem entry_bare (h : Hash) (n m : Note) (bare : m.bare = n.bare) (entry : Entry L h n) : Entry M h m := by
  have content : m.block.hashables = n.block.hashables := (congrArg (fun n => n.block.hashables) bare :)
  unfold Entry at entry ⊢
  rw [content]
  cases fields : n.block.hashables with
  | sendBlock previous destination balance =>
      rw [fields] at entry
      obtain ⟨before, stored, covered, follows⟩ := entry
      obtain ⟨before', stored', bare'⟩ := bare_stored same previous before stored
      have left : before'.balance = before.balance := (congrArg Note.balance bare' :)
      rw [← left] at covered follows
      exact ⟨before', stored', covered, follow_bare n m before before' _ _ bare bare' follows⟩
  | receiveBlock previous source =>
      rw [fields] at entry
      obtain ⟨before, sent, stored, sentTo, follows⟩ := entry
      obtain ⟨before', stored', bare'⟩ := bare_stored same previous before stored
      have left : before'.balance = before.balance := (congrArg Note.balance bare' :)
      have owner : before'.account = before.account := (congrArg Note.account bare' :)
      obtain ⟨sent', sentTo', amount⟩ := sent_to_bare same source _ sent sentTo
      rw [← owner] at sentTo'
      rw [← left, ← amount] at follows
      exact ⟨before', sent', stored', sentTo', follow_bare n m before before' _ _ bare bare' follows⟩
  | openBlock source representative account =>
      rw [fields] at entry
      obtain ⟨named, owned, sent, sentTo, opens⟩ := entry
      obtain ⟨sent', sentTo', amount⟩ := sent_to_bare same source _ sent sentTo
      refine ⟨named, owned, sent', sentTo', ?_⟩
      rw [amount]
      exact (bare_with n m bare).trans (congrArg (fun k : Note => { k with block := m.block }) opens)
  | changeBlock previous representative =>
      rw [fields] at entry
      obtain ⟨named, before, stored, follows⟩ := entry
      obtain ⟨before', stored', bare'⟩ := bare_stored same previous before stored
      refine ⟨named, before', stored', ?_⟩
      calc m = { n with block := m.block } := bare_with n m bare
        _ = { before.follow m.block before.balance 0 with repBlock := h } :=
            congrArg (fun k : Note => { k with block := m.block }) follows
        _ = { before'.follow m.block before'.balance 0 with repBlock := h } := by
            rw [bare_with before before' bare']
            rfl
  | sendBlockV2 previous destination action =>
      rw [fields] at entry
      obtain ⟨before, stored, follows⟩ := entry
      obtain ⟨before', stored', bare'⟩ := bare_stored same previous before stored
      have left : before'.balance = before.balance := (congrArg Note.balance bare' :)
      rw [← left] at follows
      exact ⟨before', stored', follow_bare n m before before' _ _ bare bare' follows⟩

theorem consistent_bare (env : Env) (consistent : Consistent env L)
    (signed : ∀ h m, M.get h = some m → h ≠ genesisHash env → env.validateMessage m.account h m.block.signature = false) :
    Consistent env M := by
  have back : ∀ x m, M.get x = some m → ∃ n, L.get x = some n ∧ n.bare = m.bare := bare_stored (same_bare_symm L M same)
  refine ⟨?_, ?_, ?_, signed, ?_, ?_, ?_⟩
  · obtain ⟨stamp, issued⟩ := consistent.genesis
    obtain ⟨m, found, bare⟩ := bare_stored same _ _ issued
    have content : m.block.hashables = (genesisOpen env.network).hashables := (congrArg (fun n => n.block.hashables) bare :)
    refine ⟨(m.block.signature, m.block.work), found.trans (congrArg some ?_)⟩
    rw [bare_with _ m bare]
    simp only [genesisNote, ← content]
  · intro h m stored
    obtain ⟨n, found, bare⟩ := back h m stored
    exact (congrArg (fun n => n.block.hash env) bare :).symm.trans (consistent.hashed h n found)
  · intro h m stored later
    obtain ⟨n, found, bare⟩ := back h m stored
    exact entry_bare same h n m bare.symm (consistent.entry h n found later)
  · intro h m k m' stored stored' owner previous
    obtain ⟨n, found, bare⟩ := back h m stored
    obtain ⟨n', found', bare'⟩ := back k m' stored'
    refine consistent.chain h n k n' found found' ?_ ?_
    · exact ((congrArg Note.account bare :).trans owner).trans (congrArg Note.account bare' :).symm
    · exact ((congrArg (fun n => n.block.previous) bare :).trans previous).trans (congrArg (fun n => n.block.previous) bare' :).symm
  · intro h m k m' stored stored' source spends
    obtain ⟨n, found, bare⟩ := back h m stored
    obtain ⟨n', found', bare'⟩ := back k m' stored'
    have own : n.block.source = m.block.source := (congrArg (fun n => n.block.source) bare :)
    refine consistent.once h n k n' found found' ?_ (own ▸ spends)
    exact (own.trans source).trans (congrArg (fun n => n.block.source) bare' :).symm
  · obtain ⟨rank, drops⟩ := consistent.ranked
    refine ⟨rank, fun x d => ?_⟩
    rintro ⟨m, stored, named, present⟩
    obtain ⟨n, found, bare⟩ := back x m stored
    have previous : n.block.previous = m.block.previous := (congrArg (fun n => n.block.previous) bare :)
    have source : n.block.source = m.block.source := (congrArg (fun n => n.block.source) bare :)
    refine drops x d ⟨n, found, by rw [previous, source]; exact named, ?_⟩
    obtain ⟨k, stored'⟩ := Option.ne_none_iff_exists'.mp present
    obtain ⟨k', found', _⟩ := back d k stored'
    simp [found']

end Views

section Copying

variable {env : Env} {L : Lattice} {s : Store} (consistent : Consistent env L) (h : Hash) (n : Note) (copy : Block)
  (stored : L.get h = some n) (content : copy.hashables = n.block.hashables)
include stored content

theorem same_bare_copy : SameBare L (L.put h { n with block := copy }) := by
  intro x
  rw [Table.get_put]
  split
  · next here => simp [here, stored, Note.bare, content]
  · rfl

include consistent in
theorem consistent_copy (good : env.validateMessage n.account h copy.signature = false) :
    Consistent env (L.put h { n with block := copy }) := by
  refine consistent_bare (same_bare_copy h n copy stored content) env consistent ?_
  intro x m found other
  obtain ⟨rfl, rfl⟩ | old := Table.put_some L h x _ m found
  · exact good
  · exact consistent.signed x m old other

include consistent in
theorem copy_agrees [HashesApart env] (agrees : Agrees L s) :
    ∃ blocks, blockPut env s h copy (L.succ h) = .ok { s with blocks := blocks } ∧
    Agrees (L.put h { n with block := copy }) { s with blocks := blocks } := by
  have same := same_bare_copy h n copy stored content
  have previous : copy.previous = n.block.previous := by simp only [Block.previous, content]
  have kind : copy.kind = n.block.kind := by simp only [Block.kind, content]
  have hashed : copy.hash env = h := by
    rw [Block.hash, content]
    exact consistent.hashed h n stored
  have before : copy.kind ≠ .openBlock → L.get copy.previous ≠ none := by
    intro continues
    have entry := stored_entry consistent h n stored (kind ▸ continues)
    obtain ⟨older, found, _⟩ := entry_before entry (kind ▸ continues)
    rw [previous, found]
    exact Option.some_ne_none _
  have proper : copy.previous ≠ h := previous ▸ stored_previous_ne consistent h n stored
  have linked : L.succ h = 0 ∨ L.get (L.succ h) ≠ none := by
    by_cases last : L.succ h = 0
    · exact Or.inl last
    · obtain ⟨m, found, _⟩ := succ_child L h last
      exact Or.inr (by simp [found])
  obtain ⟨blocks, put, holds⟩ := block_put_holds env L L.succ s h (L.succ h) { n with block := copy } agrees.blocks
    (fun m found => by cases stored.symm.trans found; exact kind.symm) hashed linked proper before
  refine ⟨blocks, put, agrees_bare same s blocks agrees (holds_congr _ _ _ _ holds ?_)⟩
  intro x m found
  rw [← succ_bare same x]
  split
  · next here => rw [here]
  · next other =>
      split
      · next below =>
          rw [Table.get_put_ne L h x _ other] at found
          have nonzero := stored_ne_zero consistent x m found
          exact (succ_of_child consistent stored (previous ▸ below.1.symm) nonzero).symm
      · rfl

end Copying

end Rai
