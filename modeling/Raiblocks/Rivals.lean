import Raiblocks.Chains
import Raiblocks.WalletActions

set_option autoImplicit false

namespace Rai

open Kit

def forkedBlock (env : Env) (s : Store) (block : Block) : Except Fault Block := do
  ensure (blockExists s (block.hash env) = false)
  let root := block.root
  ensure (blockExists s root = true ∨ (s.accounts.get root).isSome = true)
  let successor ← blockSuccessor s root
  match ← blockGet s successor with
  | some found => .ok found
  | none => do
      let info ← require (s.accounts.get root)
      let opening ← blockGet s info.openBlock
      require opening

-- The tables hold these bytes under the hash, before those of the successor.
def Store.Holds (s : Store) (h : Hash) (block : Block) : Prop :=
  ∃ successor : Hash, (s.blocks block.kind).get h = some (block.serialize ++ wordBytes 32 successor)

theorem fits_length (a b : Block) (kind : a.kind = b.kind) (same : a.serialize.length = b.serialize.length)
    (fits : a.Fits) : b.Fits := by
  obtain ⟨hashables, signature, work⟩ := a
  obtain ⟨hashables', signature', work'⟩ := b
  cases hashables' with
  | sendBlockV2 previous destination action =>
      cases hashables with
      | sendBlockV2 previous' destination' action' =>
          simp [Block.serialize, Hashables.serialize, writeBytes] at same
          change action.length < 65536
          rw [← same]
          exact fits
      | _ => cases kind
  | _ => trivial

section Rival

variable {env : Env} {L : Lattice} {s : Store} (consistent : Consistent env L) (agrees : Agrees L s)

include agrees in
theorem holds_fitting (h : Hash) (block : Block) (fits : block.Fits) : s.Holds h block ↔ ∃ n, L.get h = some n ∧ n.block = block := by
  constructor
  · rintro ⟨successor, bytes⟩
    rw [agrees.blocks block.kind h, rawValue] at bytes
    split at bytes
    case h_2 => cases bytes
    case h_1 n stored =>
      split at bytes
      case isFalse => cases bytes
      case isTrue kind =>
        have same := Option.some.inj bytes
        have lengths : n.block.serialize.length = block.serialize.length := by
          simpa using congrArg List.length same
        have own := deserialize_written (0, 0) n.block (wordBytes 32 (L.succ h)) (fits_length block n.block kind.symm lengths.symm fits)
        have other := deserialize_written (0, 0) block (wordBytes 32 successor) fits
        rw [same, kind, other] at own
        exact ⟨n, stored, (Prod.mk.inj (Option.some.inj own)).1.symm⟩
  · rintro ⟨n, stored, rfl⟩
    exact ⟨L.succ h, (agrees.blocks n.block.kind h).trans (raw_value_own L L.succ h n stored)⟩

include consistent agrees

theorem opening_stored [HashesApart env] (account : Account) (info : AccountInfo) (known : s.accounts.get account = some info) :
    ∃ m, L.get info.openBlock = some m ∧ m.account = account ∧ m.block.previous = 0 := by
  obtain ⟨h, n, latest, owner, same⟩ := account_owned agrees known
  have positive := height_pos consistent latest.1
  obtain ⟨x, m, _, found, owner', level, opened⟩ := path_down consistent agrees (n.height - 1) h n latest.1 (by omega)
  have first := (open_height consistent found).mp (by omega)
  obtain ⟨own, _⟩ := stored_open consistent found first
  have opening : info.openBlock = x := by
    rw [same, Note.info_openBlock, ← opened, own]
  exact ⟨m, opening ▸ found, owner'.trans owner, first⟩

theorem forked_block_reads [HashesApart env] (block : Block) (fresh : L.get (block.hash env) = none)
    (refused : Refused env L block .fork) :
    ∃ h rival found, L.get h = some rival ∧ rival.block.root = block.root ∧ blockGet s h = .ok (some found) ∧
      forkedBlock env s block = .ok found := by
  have unknown := exists_absent agrees.blocks _ fresh
  cases refused with
  | fork before later stored covered =>
      obtain ⟨rival, child, above⟩ := succ_child L block.previous covered
      obtain ⟨found, read, _⟩ := get_reads_as agrees.blocks _ rival child
      have nonzero : rival.block.previous ≠ 0 := above ▸ stored_ne_zero consistent _ before stored
      have follows : rival.block.kind ≠ .openBlock := (previous_zero_iff consistent child).not.mp nonzero
      have root := root_continued block later
      refine ⟨_, rival, found, child, by rw [root_continued rival.block follows, above, root], read, ?_⟩
      have present := exists_stored agrees.blocks stored
      simp [forkedBlock, unknown, root, present, successor_stored agrees.blocks _ before stored, read, ensure, bind, Except.bind]
  | opened source representative x m stored fields =>
      have root : block.root = m.account := by simp [Block.root, fields]
      have absent := account_not_stored consistent m.account (stored_account consistent x m stored)
      obtain ⟨info, known⟩ := Option.isSome_iff_exists.mp (account_present consistent agrees x m stored)
      obtain ⟨opening, present, owner, first⟩ := opening_stored consistent agrees m.account info known
      obtain ⟨found, read, _⟩ := get_reads_as agrees.blocks _ opening present
      refine ⟨_, opening, found, present, by rw [root_opened consistent _ opening present first, owner, root], read, ?_⟩
      have nothing : blockGet s 0#256 = .ok none := get_absent agrees.blocks 0 (zero_not_stored consistent)
      simp [forkedBlock, unknown, root, known, successor_absent agrees.blocks _ absent, nothing, read, ensure, require,
        bind, Except.bind]

end Rival

theorem process_fork_fresh (env : Env) (fuel : Nat) (clock : Hash → Nat) (uninit : ProcessReturn) (s : Store) (block : Block)
    (out : Store × ProcessReturn) (returned : ledgerProcess env fuel clock uninit s block = .ok out) (forked : out.2.code = .fork) :
    blockExists s (block.hash env) = false := by
  by_contra known
  rw [process_known clock uninit fuel block (Bool.not_eq_false _ ▸ known)] at returned
  rw [← Except.ok.inj returned] at forked
  cases forked

-- The rival of a fork is returned exactly if the ledger's block with this root can be read back.
theorem forked_block_iff (env : Env) (apart : HashesApart env) (s : Store) (reached : Reachable env s) (fuel : Nat) (clock : Hash → Nat)
    (uninit : ProcessReturn) (block : Block) (out : Store × ProcessReturn)
    (returned : ledgerProcess env fuel clock uninit s block = .ok out) (forked : out.2.code = .fork) :
    (∃ found, forkedBlock env s block = .ok found ∧ s.Holds (found.hash env) found ∧ found ≠ block ∧ found.root = block.root) ↔
      ∃ h rival, s.Holds h rival ∧ rival.root = block.root ∧ rival.Fits := by
  obtain ⟨L, consistent, agrees⟩ := reachable_agrees reached
  have unknown := process_fork_fresh env fuel clock uninit s block out returned forked
  have fresh : L.get (block.hash env) = none := by
    by_contra present
    rw [(exists_iff agrees.blocks _).mpr present] at unknown
    cases unknown
  have refused : Refused env L block .fork := by
    rcases process_returned clock out consistent agrees returned with ⟨n, accepted⟩ | ⟨_, refused⟩
    · rw [accepted.code] at forked
      cases forked
    · exact forked ▸ refused
  obtain ⟨h, rival, found, stored, root, read, answer⟩ := forked_block_reads consistent agrees block fresh refused
  constructor
  · rintro ⟨found', answer', held, _, root'⟩
    have same := Except.ok.inj (answer.symm.trans answer')
    exact ⟨_, found', held, root', same ▸ block_get_fits s h found read⟩
  · rintro ⟨h', rival', held, root', fits⟩
    obtain ⟨n, stored', carried⟩ := (holds_fitting agrees h' rival' fits).mp held
    have place : h' = h := root_injective consistent stored' stored (by rw [carried, root', root])
    have exact := get_fits agrees.blocks h' n stored' (carried ▸ fits)
    rw [place, read, carried] at exact
    have same : found = rival' := Option.some.inj (Except.ok.inj exact)
    have hashed : rival'.hash env = h' := carried ▸ consistent.hashed h' n stored'
    refine ⟨rival', same ▸ answer, hashed.symm ▸ held, fun equal => ?_, root'⟩
    rw [← equal, hashed, stored'] at fresh
    cases fresh

def forkSend : Block := ⟨.sendBlock (genesisHash sampleEnv) (sampleKey 2) 4, 0, 0⟩

theorem forked_block_sample : ∃ s, Replay sampleEnv [sampleSend] s ∧ ∃ found, forkedBlock sampleEnv s forkSend = .ok found ∧
    s.Holds (found.hash sampleEnv) found ∧ found ≠ forkSend ∧ found.root = forkSend.root := by
  obtain ⟨s, _, replay, processed, held⟩ := replay_checked sampleEnv 20 [sampleSend] (fun s =>
    (ledgerProcess sampleEnv 5 (fun _ => 0) ⟨.progress, 0, 0, 0⟩ s forkSend).map (fun out => out.2.code) = .ok .fork ∧
    (s.blocks .sendBlock).get (sampleSend.hash sampleEnv) = some (sampleSend.serialize ++ wordBytes 32 (0 : Hash))) (by decide +kernel)
  obtain ⟨out, returned, forked⟩ := map_returned processed
  exact ⟨s, replay, (forked_block_iff sampleEnv sample_apart s (replay_reachable replay) _ _ _ forkSend out returned forked).mpr
    ⟨_, sampleSend, ⟨0, held⟩, rfl, trivial⟩⟩

theorem genesis_contract_previous (action : Bytes) : (genesisContract action).previous = genesisHash sampleEnv := rfl

theorem genesis_contract_root (action : Bytes) : (genesisContract action).root = genesisHash sampleEnv := rfl

theorem long_contract_forks (L : Lattice) (s : Store) (n below : Note) (consistent : Consistent sampleEnv L) (agrees : Agrees L s)
    (carried : n.block = genesisContract longAction) (stored : L.get ((genesisContract longAction).hash sampleEnv) = some n)
    (first : L.get (genesisHash sampleEnv) = some below) (fresh : L.get ((genesisContract []).hash sampleEnv) = none) :
    ledgerProcess sampleEnv 0 (fun _ => 0) ⟨.progress, 0, 0, 0⟩ s (genesisContract []) = .ok (s, ⟨.fork, 0, 0, 0⟩) ∧
      forkedBlock sampleEnv s (genesisContract []) = .ok (genesisContract []) := by
  have unknown := exists_absent agrees.blocks _ fresh
  have covered : L.succ (genesisHash sampleEnv) ≠ 0 := fun last =>
    (succ_zero_iff consistent _ (stored_ne_zero consistent _ _ first)).mp last _ n stored
      (carried ▸ genesis_contract_previous longAction)
  have headless := frontier_covered agrees (genesisHash sampleEnv) fun _ latest => covered latest.2
  obtain ⟨h, rival, found, stored', root, read, answer⟩ := forked_block_reads consistent agrees (genesisContract []) fresh
    (.fork below Kind.noConfusion first covered)
  have place : h = (genesisContract longAction).hash sampleEnv :=
    root_injective consistent stored' stored (by rw [root, carried, genesis_contract_root, genesis_contract_root])
  rw [place, long_contract_read s n L agrees carried stored] at read
  have same : genesisContract [] = found := Option.some.inj (Except.ok.inj read)
  refine ⟨?_, answer.trans (congrArg Except.ok same.symm)⟩
  change processSendV2 sampleEnv _ _ _ s (genesisContract []) (genesisHash sampleEnv) (sampleKey 1) [] = _
  rw [processSendV2, if_neg (Bool.eq_false_iff.mp unknown), if_neg (not_not.mpr (exists_stored agrees.blocks first)), headless,
    if_pos rfl]

-- The rival has an action of 65536 bytes, and the block that forks from it is what is read back in its place.
theorem forked_block_is_block : ∃ s out, Reachable sampleEnv s ∧
    ledgerProcess sampleEnv 0 (fun _ => 0) ⟨.progress, 0, 0, 0⟩ s (genesisContract []) = .ok out ∧ out.2.code = .fork ∧
    forkedBlock sampleEnv s (genesisContract []) = .ok (genesisContract []) := by
  obtain ⟨s, n, _, carried, attach, agrees, reached⟩ := genesis_contract_accepted longAction long_contract_fresh
  have grown := consistent_attach (consistent_genesis sampleEnv (genesisStamp sampleEnv.network)) attach
  have stored := Table.get_put_self (genesisLattice sampleEnv (genesisStamp sampleEnv.network))
    ((genesisContract longAction).hash sampleEnv) n
  have first :
    Table.get ((genesisLattice sampleEnv (genesisStamp sampleEnv.network)).put ((genesisContract longAction).hash sampleEnv) n)
      (genesisHash sampleEnv) = some (genesisNote sampleEnv (genesisStamp sampleEnv.network)) := by
    rw [Table.get_put_ne _ _ _ _ long_contract_fresh.symm, genesisLattice, Table.get_put_self]
  have fresh :
    Table.get ((genesisLattice sampleEnv (genesisStamp sampleEnv.network)).put ((genesisContract longAction).hash sampleEnv) n)
      ((genesisContract []).hash sampleEnv) = none := by
    have apart : (genesisContract []).hash sampleEnv ≠ (genesisContract longAction).hash sampleEnv ∧
        (genesisContract []).hash sampleEnv ≠ genesisHash sampleEnv := by
      rw [long_contract_hash]
      decide +kernel
    rw [Table.get_put_ne _ _ _ _ apart.1, genesisLattice, Table.get_put_ne _ _ _ _ apart.2, Table.get_empty]
  obtain ⟨forks, answer⟩ := long_contract_forks _ s n _ grown agrees carried stored first fresh
  exact ⟨s, _, reached, forks, rfl, answer⟩

end Rai
