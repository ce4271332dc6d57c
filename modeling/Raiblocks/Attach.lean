import Raiblocks.Lattice

set_option autoImplicit false

namespace Rai

open Kit

-- `L` is what is left of `M`, or what `M` has grown from.
def Below (L M : Lattice) : Prop := ∀ h n, L.get h = some n → M.get h = some n

theorem below_refl (L : Lattice) : Below L L := fun _ _ stored => stored

theorem below_trans (K L M : Lattice) (lower : Below K L) (upper : Below L M) : Below K M :=
  fun h n stored => upper h n (lower h n stored)

theorem below_put (L : Lattice) (h : Hash) (n : Note) (fresh : L.get h = none) : Below L (L.put h n) := by
  intro x m stored
  rw [Table.get_put_ne L h x n]
  · exact stored
  · rintro rfl
    rw [fresh] at stored
    cases stored

theorem below_del (M : Lattice) (h : Hash) : Below (M.del h) M := by
  intro x n stored
  exact (Table.del_some M h x n stored).2

theorem below_without (L M : Lattice) (h : Hash) (n : Note) (below : Below L (M.put h n)) (absent : L.get h = none) : Below L M := by
  intro x m stored
  have above := below x m stored
  have other : x ≠ h := by
    rintro rfl
    rw [absent] at stored
    cases stored
  rwa [Table.get_put_ne M h x n other] at above

theorem kept_below (L M : Lattice) (t : Hash) (n : Note) (below : Below L M) (stored : M.get t = some n) (present : L.get t ≠ none) :
    L.get t = some n := by
  obtain ⟨m, found⟩ := Option.ne_none_iff_exists'.mp present
  rw [found, ← stored, below t m found]

theorem needs_below (L M : Lattice) (below : Below L M) (x d : Hash) (needs : Needs L x d) : Needs M x d := by
  obtain ⟨n, stored, named, present⟩ := needs
  obtain ⟨m, found⟩ := Option.ne_none_iff_exists'.mp present
  exact ⟨n, below x n stored, named, by simp [below d m found]⟩

theorem entry_below (L M : Lattice) (below : Below L M) (h : Hash) (n : Note) (entry : Entry L h n) : Entry M h n :=
  entry_mono L M h n (fun d m _ stored => below d m stored) entry

section Growth

variable {env : Env} {L : Lattice} {h : Hash} {n : Note}

theorem attach_nonzero [apart : HashesApart env] (attach : Attach env L h n) : h ≠ 0 := by
  rw [← attach.hashed]
  exact apart.zero n.block

theorem attach_previous_ne [HashesApart env] (attach : Attach env L h n) : n.block.previous ≠ h := by
  intro loop
  by_cases opening : n.block.kind = .openBlock
  · exact attach_nonzero attach (loop.symm.trans (open_previous n.block opening))
  · obtain ⟨before, stored, _⟩ := entry_before attach.entry opening
    rw [loop, attach.fresh] at stored
    cases stored

theorem attach_source_ne [HashesApart env] (attach : Attach env L h n) : n.block.source ≠ h := by
  intro loop
  obtain ⟨sent, sentTo, _⟩ := entry_source L h n attach.entry (loop ▸ attach_nonzero attach)
  rw [loop] at sentTo
  have stored := sentTo.1
  rw [attach.fresh] at stored
  cases stored

theorem attach_unnamed [HashesApart env] (consistent : Consistent env L) (attach : Attach env L h n) (x : Hash) (m : Note)
    (stored : L.get x = some m) : m.block.previous ≠ h ∧ m.block.source ≠ h := by
  have absent : ∀ d, d = h → ¬ (d = m.block.previous ∨ d = m.block.source) := by
    rintro d rfl named
    exact needs_stored consistent x d m stored ⟨n.block, attach.hashed⟩ named attach.fresh
  exact ⟨fun loop => absent _ loop (Or.inl rfl), fun loop => absent _ loop (Or.inr rfl)⟩

theorem ranked_attach [HashesApart env] (consistent : Consistent env L) (attach : Attach env L h n) :
    ∃ rank : Hash → Nat, ∀ x d, Needs (L.put h n) x d → rank d < rank x := by
  obtain ⟨rank, ranked⟩ := consistent.ranked
  refine ⟨fun x => if x = h then rank n.block.previous + rank n.block.source + 1 else rank x, ?_⟩
  rintro x d ⟨m, stored, named, present⟩
  rw [Table.get_put] at stored
  by_cases new : x = h
  · rw [if_pos new] at stored
    cases stored
    have older : d ≠ h := by
      rintro rfl
      obtain loop | loop := named
      · exact attach_previous_ne attach loop.symm
      · exact attach_source_ne attach loop.symm
    simp only [if_pos new, if_neg older]
    obtain rfl | rfl := named <;> omega
  · rw [if_neg new] at stored
    have older : d ≠ h := by
      rintro rfl
      obtain ⟨apartPrevious, apartSource⟩ := attach_unnamed consistent attach x m stored
      obtain loop | loop := named
      · exact apartPrevious loop.symm
      · exact apartSource loop.symm
    simp only [if_neg new, if_neg older]
    rw [Table.get_put_ne L h d n older] at present
    exact ranked x d ⟨m, stored, named, present⟩

theorem consistent_attach [HashesApart env] (consistent : Consistent env L) (attach : Attach env L h n) :
    Consistent env (L.put h n) := by
  have grown := below_put L h n attach.fresh
  have cases_put := fun x m => Table.put_some L h x n m
  obtain ⟨stamp, issued⟩ := consistent.genesis
  refine ⟨⟨stamp, grown _ _ issued⟩, ?_, ?_, ?_, ?_, ?_, ranked_attach consistent attach⟩
  · intro x m stored
    obtain ⟨rfl, rfl⟩ | old := cases_put x m stored
    · exact attach.hashed
    · exact consistent.hashed x m old
  · intro x m stored later
    obtain ⟨rfl, rfl⟩ | old := cases_put x m stored
    · exact entry_below L _ grown x m attach.entry
    · exact entry_below L _ grown x m (consistent.entry x m old later)
  · intro x m stored later
    obtain ⟨rfl, rfl⟩ | old := cases_put x m stored
    · exact attach.signed
    · exact consistent.signed x m old later
  · intro x m y k stored present owner same
    obtain ⟨rfl, rfl⟩ | old := cases_put x m stored <;> obtain ⟨rfl, rfl⟩ | old' := cases_put y k present
    · rfl
    · exact absurd same (attach.latest y k old' owner)
    · exact absurd same.symm (attach.latest x m old owner.symm)
    · exact consistent.chain x m y k old old' owner same
  · intro x m y k stored present same spends
    obtain ⟨rfl, rfl⟩ | old := cases_put x m stored <;> obtain ⟨rfl, rfl⟩ | old' := cases_put y k present
    · rfl
    · exact absurd same (attach.unspent y k old' spends)
    · exact absurd same.symm (attach.unspent x m old (same ▸ spends))
    · exact consistent.once x m y k old old' same spends

theorem succ_attach [HashesApart env] (consistent : Consistent env L) (attach : Attach env L h n) (x : Hash)
    (nonzero : x ≠ 0) : Lattice.succ (L.put h n) x = if x = n.block.previous then h else L.succ x := by
  have grown := consistent_attach consistent attach
  split
  · next extended =>
      exact succ_of_child grown (Table.get_put_self L h n) extended.symm nonzero
  · next other =>
      by_cases last : L.succ x = 0
      · rw [last, succ_zero_iff grown x nonzero]
        intro c m stored child
        obtain ⟨_, rfl⟩ | old := Table.put_some L h c n m stored
        · exact other child.symm
        · exact (succ_zero_iff consistent x nonzero).mp last c m old child
      · obtain ⟨m, stored, child⟩ := succ_child L x last
        exact succ_of_child grown (below_put L h n attach.fresh _ m stored) child nonzero

theorem succ_attached [HashesApart env] (consistent : Consistent env L) (attach : Attach env L h n) :
    L.succ h = 0 := by
  rw [succ_zero_iff consistent h (attach_nonzero attach)]
  intro c m stored
  exact (attach_unnamed consistent attach c m stored).1

theorem succ_before [HashesApart env] (consistent : Consistent env L) (attach : Attach env L h n) (before : Note)
    (stored : L.get n.block.previous = some before) (owner : n.account = before.account) : L.succ n.block.previous = 0 := by
  have nonzero := stored_ne_zero consistent _ before stored
  rw [succ_zero_iff consistent _ nonzero]
  intro c m present child
  obtain ⟨below, found, follows⟩ := stored_before consistent present (child ▸ nonzero)
  rw [child, stored] at found
  cases found
  exact attach.latest c m present (owner.trans follows.account.symm) child.symm

theorem received_attach (x : Hash) (fresh : L.get h = none) :
    Lattice.Received (L.put h n) x ↔ n.block.source = x ∨ L.Received x := by
  constructor
  · rintro ⟨c, m, stored, spent⟩
    obtain ⟨_, rfl⟩ | old := Table.put_some L h c n m stored
    · exact Or.inl spent
    · exact Or.inr ⟨c, m, old, spent⟩
  · rintro (spent | ⟨c, m, stored, spent⟩)
    · exact ⟨h, n, Table.get_put_self L h n, spent⟩
    · exact ⟨c, m, below_put L h n fresh c m stored, spent⟩

theorem rep_below (M : Lattice) (below : Below L M) (x : Hash) (m : Note) (stored : L.get x = some m) : M.rep x = L.rep x := by
  rw [Lattice.rep, Lattice.rep, stored, below x m stored]

end Growth

section Removal

variable {env : Env} {M : Lattice} {h : Hash} {n : Note}

theorem attach_del (consistent : Consistent env M) (stored : M.get h = some n) (later : h ≠ genesisHash env)
    (unnamed : ∀ x m, M.get x = some m → m.block.previous ≠ h ∧ m.block.source ≠ h) : Attach env (M.del h) h n := by
  have older : ∀ x m, (M.del h).get x = some m → x ≠ h ∧ M.get x = some m := by
    intro x m present
    refine ⟨?_, below_del M h x m present⟩
    rintro rfl
    rw [Table.get_del_self] at present
    cases present
  refine ⟨Table.get_del_self M h, consistent.hashed h n stored, ?_, consistent.signed h n stored later, ?_, ?_⟩
  · apply entry_mono M (M.del h) h n _ (consistent.entry h n stored later)
    intro d m named present
    rw [Table.get_del_ne M h d]
    · exact present
    · rintro rfl
      obtain loop | loop := named
      · exact (unnamed d n stored).1 loop.symm
      · exact (unnamed d n stored).2 loop.symm
  · intro k m present owner same
    obtain ⟨other, kept⟩ := older k m present
    exact other (consistent.chain h n k m stored kept owner same).symm
  · intro k m present spends same
    obtain ⟨other, kept⟩ := older k m present
    exact other (consistent.once h n k m stored kept same spends).symm

theorem consistent_del (consistent : Consistent env M) (later : h ≠ genesisHash env)
    (unnamed : ∀ x m, M.get x = some m → m.block.previous ≠ h ∧ m.block.source ≠ h) : Consistent env (M.del h) := by
  have below := below_del M h
  refine ⟨?_, ?_, ?_, ?_, ?_, ?_, ?_⟩
  · rw [Table.get_del_ne M h _ later.symm]
    exact consistent.genesis
  · exact fun x m stored => consistent.hashed x m (below x m stored)
  · intro x m stored other
    have present := below x m stored
    apply entry_mono M (M.del h) x m _ (consistent.entry x m present other)
    intro d k named found
    rw [Table.get_del_ne M h d]
    · exact found
    · rintro rfl
      obtain loop | loop := named
      · exact (unnamed x m present).1 loop.symm
      · exact (unnamed x m present).2 loop.symm
  · exact fun x m stored => consistent.signed x m (below x m stored)
  · exact fun x m y k stored present => consistent.chain x m y k (below x m stored) (below y k present)
  · exact fun x m y k stored present => consistent.once x m y k (below x m stored) (below y k present)
  · obtain ⟨rank, ranked⟩ := consistent.ranked
    exact ⟨rank, fun x d needs => ranked x d (needs_below _ M below x d needs)⟩

end Removal

def genesisLattice (env : Env) (stamp : Signature × Work) : Lattice := Table.empty.put (genesisHash env) (genesisNote env stamp)

theorem genesis_stored {env : Env} (stamp : Signature × Work) {h : Hash} {n : Note}
    (stored : (genesisLattice env stamp).get h = some n) :
    h = genesisHash env ∧ n = genesisNote env stamp := by
  rw [genesisLattice, Table.get_put, Table.get_empty] at stored
  split at stored
  · next same => exact ⟨same, (Option.some.inj stored).symm⟩
  · cases stored

theorem stamp_unique (env : Env) (stamp other : Signature × Work)
    (same : (genesisNote env stamp).block = (genesisNote env other).block) :
    stamp = other :=
  Prod.ext (congrArg Block.signature same) (congrArg Block.work same)

theorem consistent_genesis (env : Env) [apart : HashesApart env] (stamp : Signature × Work) :
    Consistent env (genesisLattice env stamp) := by
  refine ⟨⟨stamp, Table.get_put_self _ _ _⟩, ?_, ?_, ?_, ?_, ?_, fun _ => 0, ?_⟩
  · intro h n stored
    obtain ⟨rfl, rfl⟩ := genesis_stored stamp stored
    rfl
  · exact fun h n stored later => absurd (genesis_stored stamp stored).1 later
  · exact fun h n stored later => absurd (genesis_stored stamp stored).1 later
  · intro h n k m stored present _ _
    rw [(genesis_stored stamp stored).1, (genesis_stored stamp present).1]
  · intro h n k m stored present _ _
    rw [(genesis_stored stamp stored).1, (genesis_stored stamp present).1]
  · rintro x d ⟨n, stored, named, present⟩
    obtain ⟨rfl, rfl⟩ := genesis_stored stamp stored
    obtain ⟨m, found⟩ := Option.ne_none_iff_exists'.mp present
    obtain ⟨rfl, rfl⟩ := genesis_stored stamp found
    obtain loop | loop := named
    · exact absurd loop (apart.zero _)
    · exact absurd loop (apart.account _ _ (Or.inl rfl))

-- A block of the highest rank is named by no other, so a lattice can be taken down to genesis.
theorem exists_unnamed (env : Env) (M : Lattice) (consistent : Consistent env M) [apart : HashesApart env]
    (more : ∀ stamp, M ≠ genesisLattice env stamp) : ∃ h n, M.get h = some n ∧ h ≠ genesisHash env ∧
      ∀ x m, M.get x = some m → m.block.previous ≠ h ∧ m.block.source ≠ h := by
  obtain ⟨rank, ranked⟩ := consistent.ranked
  have others : (M.keys.erase (genesisHash env)).Nonempty := by
    by_contra none
    rw [Finset.not_nonempty_iff_eq_empty] at none
    obtain ⟨stamp, issued⟩ := consistent.genesis
    apply more stamp
    apply Table.ext_get
    intro x
    rw [genesisLattice, Table.get_put, Table.get_empty]
    split
    · next same => rw [same, issued]
    · next other =>
        by_contra present
        have member := Finset.mem_erase.mpr ⟨other, (Table.mem_keys M x).mpr present⟩
        rw [none] at member
        exact absurd member (Finset.notMem_empty x)
  obtain ⟨h, chosen, highest⟩ := Finset.exists_max_image _ rank others
  obtain ⟨later, member⟩ := Finset.mem_erase.mp chosen
  have present := (Table.mem_keys M h).mp member
  obtain ⟨n, stored⟩ := Option.ne_none_iff_exists'.mp present
  have unnamed : ∀ x m, M.get x = some m → ¬ (h = m.block.previous ∨ h = m.block.source) := by
    intro x m found named
    have lower := ranked x h ⟨m, found, named, present⟩
    by_cases atGenesis : x = genesisHash env
    · subst atGenesis
      obtain ⟨stamp, rfl⟩ := stored_genesis consistent m found
      obtain loop | loop := named
      · exact stored_ne_zero consistent h n stored loop
      · exact apart.account _ _ (Or.inl rfl) ((consistent.hashed h n stored).trans loop)
    · have bound := highest x (Finset.mem_erase.mpr ⟨atGenesis, (Table.mem_keys M x).mpr (by simp [found])⟩)
      omega
  exact ⟨h, n, stored, later, fun x m found =>
    ⟨fun loop => unnamed x m found (Or.inl loop.symm), fun loop => unnamed x m found (Or.inr loop.symm)⟩⟩

theorem consistent_induction (env : Env) [HashesApart env] (holds : Lattice → Prop) (base : ∀ stamp, holds (genesisLattice env stamp))
    (step : ∀ L h n, Consistent env L → Attach env L h n → holds L → holds (L.put h n)) (M : Lattice)
    (consistent : Consistent env M) : holds M := by
  obtain ⟨size, sizeEq⟩ : ∃ size, M.size = size := ⟨_, rfl⟩
  induction size generalizing M with
  | zero =>
      have absent : genesisHash env ∉ M.keys := by
        rw [Finset.card_eq_zero.mp sizeEq]
        exact Finset.notMem_empty _
      exact absurd ((Table.mem_keys M _).mpr (genesis_present consistent)) absent
  | succ size ih =>
      by_cases more : ∃ stamp, M = genesisLattice env stamp
      · obtain ⟨stamp, only⟩ := more
        rw [only]
        exact base stamp
      · obtain ⟨h, n, stored, later, unnamed⟩ := exists_unnamed env M consistent fun stamp only => more ⟨stamp, only⟩
        have smaller := Table.size_del M h n stored
        have rest := consistent_del consistent later unnamed
        have kept := ih (M.del h) rest (by omega)
        have grown := step (M.del h) h n rest (attach_del consistent stored later unnamed) kept
        rwa [Table.put_del_self M h n stored] at grown

theorem entry_unique (L : Lattice) (h : Hash) (n m : Note) (entry : Entry L h n) (entry' : Entry L h m)
    (same : n.block = m.block) : n = m := by
  obtain ⟨⟨hashables, signature, work⟩, account, openBlock, repBlock, height, balance, amount⟩ := n
  obtain ⟨block', account', openBlock', repBlock', height', balance', amount'⟩ := m
  dsimp only at same
  subst same
  cases hashables with
  | sendBlock previous destination balance =>
      obtain ⟨before, stored, _, eq⟩ := entry
      obtain ⟨before', stored', _, eq'⟩ := entry'
      cases stored.symm.trans stored'
      exact eq.trans eq'.symm
  | receiveBlock previous source =>
      obtain ⟨before, sent, stored, sentTo, eq⟩ := entry
      obtain ⟨before', sent', stored', sentTo', eq'⟩ := entry'
      cases stored.symm.trans stored'
      cases sentTo.1.symm.trans sentTo'.1
      exact eq.trans eq'.symm
  | openBlock source representative owner =>
      obtain ⟨_, _, sent, sentTo, eq⟩ := entry
      obtain ⟨_, _, sent', sentTo', eq'⟩ := entry'
      cases sentTo.1.symm.trans sentTo'.1
      exact eq.trans eq'.symm
  | changeBlock previous representative =>
      obtain ⟨_, before, stored, eq⟩ := entry
      obtain ⟨_, before', stored', eq'⟩ := entry'
      cases stored.symm.trans stored'
      exact eq.trans eq'.symm
  | sendBlockV2 previous destination action =>
      obtain ⟨before, stored, eq⟩ := entry
      obtain ⟨before', stored', eq'⟩ := entry'
      cases stored.symm.trans stored'
      exact eq.trans eq'.symm

theorem below_of_blocks (env : Env) [HashesApart env] (L : Lattice) (lower : Consistent env L) :
    ∀ M, Consistent env M → (∀ h n, L.get h = some n → ∃ m, M.get h = some m ∧ m.block = n.block) → Below L M := by
  apply consistent_induction env _ _ _ L lower
  · intro stamp M upper blocks h n stored
    obtain ⟨m, found, same⟩ := blocks h n stored
    obtain ⟨rfl, rfl⟩ := genesis_stored stamp stored
    obtain ⟨other, rfl⟩ := stored_genesis upper m found
    rw [found, stamp_unique env other stamp same]
  · intro K h n consistent attach ih M upper blocks
    have rest : Below K M := ih M upper fun x m stored => blocks x m (below_put K h n attach.fresh x m stored)
    intro x k stored
    obtain ⟨rfl, rfl⟩ | old := Table.put_some K h x n k stored
    · obtain ⟨m, found, same⟩ := blocks x k stored
      have later : x ≠ genesisHash env := by
        rintro rfl
        exact genesis_present consistent attach.fresh
      have entry := entry_below K M rest x k attach.entry
      rw [entry_unique M x k m entry (upper.entry x m found later) same.symm]
      exact found
    · exact rest x k old

theorem lattice_unique (env : Env) [HashesApart env] (L M : Lattice) (left : Consistent env L) (right : Consistent env M)
    (blocks : ∀ h, (L.get h).map Note.block = (M.get h).map Note.block) : L = M := by
  have lower : Below L M := below_of_blocks env L left M right fun h n stored => by
    have same := blocks h
    rw [stored, Option.map_some] at same
    exact Option.map_eq_some_iff.mp same.symm
  have upper : Below M L := below_of_blocks env M right L left fun h n stored => by
    have same := blocks h
    rw [stored, Option.map_some] at same
    exact Option.map_eq_some_iff.mp same
  apply Table.ext_get
  intro x
  cases found : L.get x with
  | some n => rw [lower x n found]
  | none =>
      cases found' : M.get x with
      | none => rfl
      | some n =>
          rw [upper x n found'] at found
          cases found

end Rai
