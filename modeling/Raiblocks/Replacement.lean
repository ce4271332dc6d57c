import Raiblocks.RollbackReplay
import Raiblocks.Unreceived

set_option autoImplicit false

namespace Rai

open Kit

def GoesWith (s : Store) (loser x : Hash) : Prop := Relation.ReflTransGen (NamesBlock s) x loser

-- `rollback` takes the block off: it is not genesis, and everything that goes with it can be undone.
structure Removable (env : Env) (s : Store) (loser : Hash) : Prop where
  later : loser ≠ genesisHash env
  undoable : ∀ x block, GoesWith s loser x → blockGet s x = .ok (some block) → Undoable env s block

-- A send to `account` that stays, and that nobody who stays has collected.
structure Collectable (s : Store) (loser : Hash) (account : Account) (source : Hash) : Prop where
  sent : ∃ previous balance, StoredAs s source (.sendBlock previous account balance)
  stays : ¬ GoesWith s loser source
  freed : ∀ x, Collects s x source → GoesWith s loser x

inductive Admissible (env : Env) (s : Store) (loser : Hash) (block : Block) : Prop where
  | send (previous : Hash) (destination owner : Account) (balance held : Amount)
      (fields : block.hashables = .sendBlock previous destination balance) (chained : OnChain s owner previous)
      (signed : env.validateMessage owner (block.hash env) block.signature = false) (worth : Worth env s previous held)
      (covered : balance ≤ held) : Admissible env s loser block
  | receive (previous source : Hash) (owner : Account) (fields : block.hashables = .receiveBlock previous source)
      (chained : OnChain s owner previous) (signed : env.validateMessage owner (block.hash env) block.signature = false)
      (collectable : Collectable s loser owner source) : Admissible env s loser block
  | opens (source : Hash) (representative account : Account) (fields : block.hashables = .openBlock source representative account)
      (signed : env.validateMessage account (block.hash env) block.signature = false) (named : representative ≠ 0)
      (proper : account ≠ burnAccount) (collectable : Collectable s loser account source) : Admissible env s loser block
  | change (previous : Hash) (representative owner : Account) (fields : block.hashables = .changeBlock previous representative)
      (chained : OnChain s owner previous) (signed : env.validateMessage owner (block.hash env) block.signature = false)
      (named : representative ≠ 0) (computes : Returns fun fuel => ledgerBalance env fuel s previous) : Admissible env s loser block
  | contract (previous : Hash) (destination owner : Account) (action : Bytes)
      (fields : block.hashables = .sendBlockV2 previous destination action) (chained : OnChain s owner previous)
      (signed : env.validateMessage owner (block.hash env) block.signature = false) (loads : block.LoadReturns env) :
      Admissible env s loser block

-- A block that is there already is written once more only for better work, and then it has to stand on something.
def Rewritable (env : Env) (s : Store) (block : Block) : Prop :=
  block.kind = .openBlock ∨ blockExists s block.previous = true ∨
    ∀ existing, blockGet s (block.hash env) = .ok (some existing) →
      ¬ workValue env block.root block.work > workValue env block.root existing.work

structure Kept (env : Env) (s : Store) (loser : Hash) (block : Block) : Prop where
  present : blockExists s (block.hash env) = true
  stays : ¬ GoesWith s loser (block.hash env)
  rewritable : Rewritable env s block

theorem removable_iff {env : Env} {M : Lattice} {s : Store} {loser : Hash} {m : Note} (agrees : Agrees M s)
    (stored : M.get loser = some m) :
    Removable env s loser ↔
      loser ≠ genesisHash env ∧ ∀ x n, M.get x = some n → Depends M x loser → Undoable env s n.block := by
  have goes : ∀ x, GoesWith s loser x ↔ Depends M x loser := fun x => names_depends agrees x loser (by simp [stored])
  constructor
  · rintro ⟨later, undoable⟩
    refine ⟨later, fun x n there depends => ?_⟩
    obtain ⟨block, read, same⟩ := get_reads_as agrees.blocks x n there
    have taken := undoable x block ((goes x).mpr depends) read
    have plain : n.block.kind ≠ .sendBlockV2 := reads_as_kind n.block same ▸ taken.plain
    exact reads_as_exact _ _ same plain ▸ taken
  · rintro ⟨later, undoable⟩
    refine ⟨later, fun x block gone read => ?_⟩
    obtain ⟨n, there, same⟩ := read_stored agrees read
    have taken := undoable x n there ((goes x).mp gone)
    rwa [reads_as_exact _ _ same taken.plain]

section Cut

variable {env : Env} {M L : Lattice} {s s' : Store} {loser : Hash} {m : Note} [HashesApart env] (upper : Consistent env M)
  (agrees : Agrees M s) (stored : M.get loser = some m) (cut : Cut env M loser s L s')
include upper cut

include agrees stored in
theorem kept_iff (x : Hash) : L.get x ≠ none ↔ M.get x ≠ none ∧ ¬ GoesWith s loser x := by
  rw [GoesWith, names_depends agrees x loser (by simp [stored]), ne_eq, cut_get upper cut x, not_or]

include stored in
theorem place_freed (x : Hash) (n : Note) (kept : L.get x = some n) : n.block.root ≠ m.block.root := by
  intro same
  have here := root_injective upper (cut.below x n kept) stored same
  rw [here, cut.removed] at kept
  cases kept

include stored in
theorem root_kept (before : Note) (present : M.get m.block.root = some before) : L.get m.block.root = some before := by
  have later : m.block.kind ≠ .openBlock := by
    intro opening
    have first := open_previous m.block opening
    rw [root_opened upper loser m stored first,
      account_not_stored upper _ (stored_account upper loser m stored)] at present
    cases present
  have needs : Needs M loser m.block.root :=
    ⟨m, stored, Or.inl (root_continued m.block later), by simp [present]⟩
  apply kept_below L M _ before cut.below present
  intro gone
  obtain absent | depends := (cut_get upper cut _).mp gone
  · rw [present] at absent
    cases absent
  · obtain ⟨rank, top, ranked⟩ := exists_ranked upper
    have up := depends_rank rank top M ranked _ _ depends
    have down := ranked.drops _ _ needs
    omega

include stored in
theorem latest_freed (block : Block) (before : Note) (later : block.kind ≠ .openBlock) (root : m.block.root = block.root)
    (present : M.get block.previous = some before) : L.Latest block.previous before := by
  rw [← root_continued block later, ← root] at present ⊢
  have kept := root_kept upper stored cut before present
  have nonzero := stored_ne_zero upper _ before present
  refine ⟨kept, (succ_zero_iff cut.consistent _ nonzero).mpr ?_⟩
  intro c n found above
  have inner : n.block.kind ≠ .openBlock := fun opening => nonzero (above.symm.trans (open_previous n.block opening))
  exact place_freed upper stored cut c n found ((root_continued n.block inner).trans above)

include agrees stored in
theorem collectable_iff (account : Account) (source : Hash) :
    Collectable s loser account source ↔ ∃ sent, SentTo L source account sent ∧ ¬ L.Received source := by
  constructor
  · rintro ⟨sends, stays, freed⟩
    obtain ⟨sent, sentTo⟩ := (sent_as_iff agrees source account).mp sends
    have nonzero := stored_ne_zero upper source sent sentTo.1
    have kept := kept_below L M source sent cut.below sentTo.1
      ((kept_iff upper agrees stored cut source).mpr ⟨by simp [sentTo.1], stays⟩)
    refine ⟨sent, ⟨kept, sentTo.2⟩, ?_⟩
    rintro ⟨c, n, found, spent⟩
    have goes := freed c ((collects_iff agrees c source nonzero).mpr ⟨n, cut.below c n found, spent⟩)
    exact ((kept_iff upper agrees stored cut c).mp (by simp [found])).2 goes
  · rintro ⟨sent, sentTo, unspent⟩
    have above := cut.below source sent sentTo.1
    have nonzero := stored_ne_zero upper source sent above
    refine ⟨(sent_as_iff agrees source account).mpr ⟨sent, above, sentTo.2⟩,
      ((kept_iff upper agrees stored cut source).mp (by simp [sentTo.1])).2, ?_⟩
    intro x collects
    obtain ⟨n, found, spent⟩ := (collects_iff agrees x source nonzero).mp collects
    by_contra stays
    have kept := kept_below L M x n cut.below found ((kept_iff upper agrees stored cut x).mpr ⟨by simp [found], stays⟩)
    exact unspent ⟨x, n, kept, spent⟩

include agrees stored in
theorem rewritable_iff (block : Block) (root : m.block.root = block.root) (kept : L.get (block.hash env) ≠ none) :
    Rewritable env s' block ↔ Rewritable env s block := by
  obtain ⟨n, found⟩ := Option.ne_none_iff_exists'.mp kept
  have read := get_alike cut.becomes.agrees.blocks agrees.blocks _ n found (cut.below _ n found)
  rw [Rewritable, Rewritable, read]
  by_cases opening : block.kind = .openBlock
  · simp only [opening, true_or]
  · have before : blockExists s' block.previous = true ↔ blockExists s block.previous = true := by
      rw [exists_iff cut.becomes.agrees.blocks, exists_iff agrees.blocks, ← root_continued block opening, ← root]
      constructor
      · intro present
        obtain ⟨k, here⟩ := Option.ne_none_iff_exists'.mp present
        rw [cut.below _ k here]
        exact Option.some_ne_none k
      · intro present
        obtain ⟨k, here⟩ := Option.ne_none_iff_exists'.mp present
        rw [root_kept upper stored cut k here]
        exact Option.some_ne_none k
    rw [before]

include agrees stored in
theorem stands_again (block : Block) (owner : Account) (later : block.kind ≠ .openBlock) (root : m.block.root = block.root)
    (chained : OnChain s owner block.previous) :
    ∃ before, M.get block.previous = some before ∧ L.Latest block.previous before ∧ before.account = owner := by
  obtain ⟨before, present, owned⟩ := on_chain_stored upper agrees chained
  exact ⟨before, present, latest_freed upper stored cut block before later root present, owned⟩

include agrees stored in
theorem admissible_attaches (block : Block) (root : m.block.root = block.root) (fresh : L.get (block.hash env) = none)
    (admissible : Admissible env s loser block) : ∃ n, n.block = block ∧ Attach env L (block.hash env) n := by
  have stands := stands_again upper agrees stored cut block
  have collects := collectable_iff upper agrees stored cut
  cases admissible with
  | send previous destination owner balance held fields chained signed worth covered =>
      have prior : block.previous = previous := by simp [Block.previous, fields]
      subst prior
      obtain ⟨before, present, latest, rfl⟩ := stands owner (by simp [Block.kind, fields]) root chained
      obtain ⟨_, found, rfl⟩ := worth_note upper agrees _ held worth
      cases present.symm.trans found
      refine ⟨before.follow block balance (before.balance - balance), rfl, ?_⟩
      apply attach_on_latest cut.consistent _ _ before fresh rfl latest _ signed
      · simp [Note.follow, Block.source, fields]
      · simp only [Entry, Note.follow, fields]
        exact ⟨before, latest.1, covered, rfl⟩
  | receive previous source owner fields chained signed collectable =>
      have prior : block.previous = previous := by simp [Block.previous, fields]
      have spent : block.source = source := by simp [Block.source, fields]
      subst prior spent
      obtain ⟨before, _, latest, rfl⟩ := stands owner (by simp [Block.kind, fields]) root chained
      obtain ⟨sent, sentTo, unspent⟩ := (collects _ _).mp collectable
      refine ⟨before.follow block (before.balance + sent.amount) sent.amount, rfl, ?_⟩
      apply attach_on_latest cut.consistent _ _ before fresh rfl latest _ signed fun _ => unspent
      simp only [Entry, Note.follow, fields]
      exact ⟨before, sent, latest.1, sentTo, rfl⟩
  | opens source representative account fields signed named proper collectable =>
      obtain ⟨sent, sentTo, unspent⟩ := (collects _ _).mp collectable
      have first : block.previous = 0 := by simp [Block.previous, fields]
      have place : m.block.root = account := root.trans (by simp [Block.root, fields])
      refine ⟨⟨block, account, block.hash env, block.hash env, 1, sent.amount, sent.amount⟩, rfl, ⟨fresh, rfl, ?_, signed, ?_, ?_⟩⟩
      · simp only [Entry, fields]
        exact ⟨named, proper, sent, sentTo, rfl⟩
      · intro x n found owner above
        have opened := root_opened cut.consistent x n found (above.symm.trans first)
        exact place_freed upper stored cut x n found (opened.trans (owner.symm.trans place.symm))
      · intro x n found _ same
        exact unspent ⟨x, n, found, same.symm.trans (by simp [Block.source, fields])⟩
  | change previous representative owner fields chained signed named _ =>
      have prior : block.previous = previous := by simp [Block.previous, fields]
      subst prior
      obtain ⟨before, _, latest, rfl⟩ := stands owner (by simp [Block.kind, fields]) root chained
      refine ⟨{ before.follow block before.balance 0 with repBlock := block.hash env }, rfl, ?_⟩
      apply attach_on_latest cut.consistent _ _ before fresh rfl latest _ signed
      · simp [Note.follow, Block.source, fields]
      · simp only [Entry, Note.follow, fields]
        exact ⟨named, before, latest.1, rfl⟩
  | contract previous destination owner action fields chained signed _ =>
      have prior : block.previous = previous := by simp [Block.previous, fields]
      subst prior
      obtain ⟨before, _, latest, rfl⟩ := stands owner (by simp [Block.kind, fields]) root chained
      refine ⟨before.follow block before.balance 0, rfl, ?_⟩
      apply attach_on_latest cut.consistent _ _ before fresh rfl latest _ signed
      · simp [Note.follow, Block.source, fields]
      · simp only [Entry, Note.follow, fields]
        exact ⟨before, latest.1, rfl⟩

include agrees stored in
theorem attached_admissible (n : Note) (attach : Attach env L (n.block.hash env) n)
    (computes : n.block.kind = .changeBlock → Returns fun fuel => ledgerBalance env fuel s n.block.previous)
    (loads : n.block.LoadReturns env) : Admissible env s loser n.block := by
  have collects := collectable_iff upper agrees stored cut
  have unspent : ∀ h, n.block.source = h → h ≠ 0 → ¬ L.Received h := by
    rintro h rfl nonzero ⟨x, k, found, spent⟩
    exact attach.unspent x k found nonzero spent.symm
  have chained : ∀ previous before, L.get previous = some before → n.account = before.account → OnChain s n.account previous := by
    intro previous before found owner
    exact (on_chain_iff upper agrees previous before (cut.below previous before found) n.account).mpr owner
  have signed := attach.signed
  have entry := attach.entry
  cases fields : n.block.hashables with
  | sendBlock previous destination balance =>
      simp only [Entry, fields] at entry
      obtain ⟨before, found, covered, same⟩ := entry
      exact .send previous destination n.account balance before.balance fields
        (chained previous before found (congrArg Note.account same :))
        signed (worth_stored upper agrees previous before (cut.below previous before found)) covered
  | receiveBlock previous source =>
      simp only [Entry, fields] at entry
      obtain ⟨before, sent, found, sentTo, same⟩ := entry
      have owner : n.account = before.account := (congrArg Note.account same :)
      have nonzero := stored_ne_zero cut.consistent source sent sentTo.1
      refine .receive previous source n.account fields (chained previous before found owner) signed ((collects _ _).mpr ?_)
      exact ⟨sent, owner ▸ sentTo, unspent source (by simp [Block.source, fields]) nonzero⟩
  | openBlock source representative account =>
      simp only [Entry, fields] at entry
      obtain ⟨named, proper, sent, sentTo, same⟩ := entry
      have owner : n.account = account := (congrArg Note.account same :)
      have nonzero := stored_ne_zero cut.consistent source sent sentTo.1
      refine .opens source representative account fields (owner ▸ signed) named proper ((collects _ _).mpr ?_)
      exact ⟨sent, sentTo, unspent source (by simp [Block.source, fields]) nonzero⟩
  | changeBlock previous representative =>
      simp only [Entry, fields] at entry
      obtain ⟨named, before, found, same⟩ := entry
      have prior : n.block.previous = previous := by simp [Block.previous, fields]
      exact .change previous representative n.account fields (chained previous before found (congrArg Note.account same :)) signed named
        (prior ▸ computes (by simp [Block.kind, fields]))
  | sendBlockV2 previous destination action =>
      simp only [Entry, fields] at entry
      obtain ⟨before, found, same⟩ := entry
      exact .contract previous destination n.account action fields (chained previous before found (congrArg Note.account same :)) signed
        loads

end Cut

theorem admissible_rewritable {env : Env} {M : Lattice} {s : Store} [HashesApart env] (upper : Consistent env M) (agrees : Agrees M s)
    (loser : Hash) (block : Block) (admissible : Admissible env s loser block) : Rewritable env s block := by
  have standing : ∀ owner previous, block.previous = previous → OnChain s owner previous → Rewritable env s block := by
    rintro owner _ rfl chained
    obtain ⟨before, present, _⟩ := on_chain_stored upper agrees chained
    exact Or.inr (Or.inl (exists_stored agrees.blocks present))
  cases admissible with
  | send previous destination owner balance held fields chained =>
    exact standing owner previous (by simp [Block.previous, fields]) chained
  | receive previous source owner fields chained => exact standing owner previous (by simp [Block.previous, fields]) chained
  | opens source representative account fields => exact Or.inl (by simp [Block.kind, fields])
  | change previous representative owner fields chained => exact standing owner previous (by simp [Block.previous, fields]) chained
  | contract previous destination owner action fields chained =>
    exact standing owner previous (by simp [Block.previous, fields]) chained

end Rai
