import Raiblocks.Messages
import Raiblocks.Replay
import Raiblocks.Wallet

set_option autoImplicit false

namespace Rai

open Kit

-- The node a wallet belongs to: ed25519 and the work pool are parameters.
structure WalletNode where
  env : Env
  keys : WalletEnv
  signMessage : Key → Account → Hash → Signature
  generateWork : Hash → Work
  receiveMinimum : Amount

inductive WalletCall where
  | send (source account : Account) (amount : Amount)
  | sendV2 (source account : Account) (action : Bytes)
  | receive (previous : Hash) (destination : Account) (balance : Amount) (representative : Account) (amount : Amount)
  | change (source representative : Account)

section Model

variable (node : WalletNode) (s : Store) (wallet : WalletStore) (generateWork : Bool)

def WalletStore.workGet (pub : Account) : Option Work :=
  if (wallet.entryGetRaw pub).key ≠ 0 then some (wallet.entryGetRaw pub).work else none

def workFetch (account : Account) (root : Hash) : Work :=
  match wallet.workGet account with
  | none => node.generateWork root
  | some work => if workValue node.env root work < publishThreshold node.env.network then node.generateWork root else work

-- The constructors of the blocks sign their own digest.
def signedBlock (hashables : Hashables) (prv : Key) (pub : Account) (root : Hash) : Block where
  hashables := hashables
  signature := node.signMessage prv pub (node.env.blake2b hashables.hash)
  work := if generateWork then workFetch node wallet pub root else 0

def sendAction (source account : Account) (amount : Amount) : Except Fault (Option Block) :=
  if wallet.validPassword node.keys ∧ wallet.exists source then
    let balance := ledgerAccountBalance s source
    if balance ≠ 0 ∧ amount ≤ balance then do
      let info ← require (s.accounts.get source)
      let fetched ← wallet.fetch node.keys source
      let prv ← require fetched
      .ok (some (signedBlock node wallet generateWork (.sendBlock info.head account (balance - amount)) prv source info.head))
    else .ok none
  else .ok none

def sendActionV2 (source account : Account) (action : Bytes) : Except Fault (Option Block) :=
  if wallet.validPassword node.keys ∧ wallet.exists source then do
    let info ← require (s.accounts.get source)
    let fetched ← wallet.fetch node.keys source
    let prv ← require fetched
    .ok (some (signedBlock node wallet generateWork (.sendBlockV2 info.head account action) prv source info.head))
  else .ok none

-- The send block is the one with the given fields.
def receiveAction (previous : Hash) (destination : Account) (balance : Amount) (representative : Account) (amount : Amount) :
    Except Fault (Option Block) :=
  let hash := node.env.blake2b (Hashables.sendBlock previous destination balance).hash
  if node.receiveMinimum ≤ amount ∧ (s.pending.get ⟨destination, hash⟩).isSome then do
    match ← wallet.fetch node.keys destination with
    | none => .ok none
    | some prv =>
        match s.accounts.get destination with
        | some info => .ok (some (signedBlock node wallet generateWork (.receiveBlock info.head hash) prv destination info.head))
        | none => do
            -- The constructor of the open block refuses to go on without a representative.
            ensure (representative ≠ 0)
            .ok (some (signedBlock node wallet generateWork (.openBlock hash representative destination) prv destination destination))
  else .ok none

def changeAction (source representative : Account) : Except Fault (Option Block) :=
  let latest := ((s.accounts.get source).map AccountInfo.head).getD 0
  if wallet.validPassword node.keys ∧ wallet.exists source ∧ latest ≠ 0 then do
    let info ← require (s.accounts.get source)
    let fetched ← wallet.fetch node.keys source
    let prv ← require fetched
    .ok (some (signedBlock node wallet generateWork (.changeBlock info.head representative) prv source info.head))
  else .ok none

def WalletCall.run : WalletCall → Except Fault (Option Block)
  | .send source account amount => sendAction node s wallet generateWork source account amount
  | .sendV2 source account action => sendActionV2 node s wallet generateWork source account action
  | .receive previous destination balance representative amount =>
      receiveAction node s wallet generateWork previous destination balance representative amount
  | .change source representative => changeAction node s wallet generateWork source representative

end Model

-- The ledgers that wallets make of their blocks, with the blocks that were accepted. A wallet may have seen another
-- ledger than the one its block comes to.
inductive WalletLedger (node : WalletNode) : List Block → Store → Prop where
  | genesis (now : Nat) (s : Store) (started : genesisInitialize node.env Store.fresh now = .ok s) :
      WalletLedger node [genesisOpen node.env.network] s
  | call (processed : List Block) (s seen : Store) (wallet : WalletStore) (generateWork : Bool) (call : WalletCall) (block : Block)
      (fuel : Nat) (clock : Hash → Nat) (uninit : ProcessReturn) (out : Store × ProcessReturn) (before : WalletLedger node processed s)
      (created : call.run node seen wallet generateWork = .ok (some block))
      (returned : ledgerProcess node.env fuel clock uninit s block = .ok out) :
      WalletLedger node (if out.2.code = .progress then processed ++ [block] else processed) out.1

section ReadBack

variable {node : WalletNode} (apart : HashesApart node.env)
include apart

theorem wallet_ledger_builds (processed : List Block) (s : Store) (run : WalletLedger node processed s) :
    ∃ log L, processed = genesisOpen node.env.network :: log ∧ Builds node.env log L ∧ Agrees L s := by
  induction run with
  | genesis now s started => exact ⟨[], _, rfl, .genesis, (genesis_started started).agrees⟩
  | call processed s seen wallet generateWork call block fuel clock uninit out _ created returned ih =>
      obtain ⟨log, L, split, built, agrees⟩ := ih
      have consistent := builds_consistent built
      rcases process_returned clock out consistent agrees returned with ⟨n, accepted⟩ | ⟨same, refused⟩
      · rw [if_pos accepted.code, split]
        refine ⟨log ++ [block], _, rfl, ?_, accepted.agrees⟩
        rw [← accepted.carries]
        exact .grow log L _ n built (accepted.carries ▸ accepted.attach)
      · rw [if_neg (refused_code node.env L block _ refused), same]
        exact ⟨log, L, split, built, agrees⟩

-- A block comes back as it was accepted exactly if its action fits the two bytes of its length.
theorem wallet_blocks_read_back_iff (processed : List Block) (s : Store) (run : WalletLedger node processed s) :
    (∀ h, blockExists s h = true → ∃ block ∈ processed, block.hash node.env = h ∧ blockGet s h = .ok (some block)) ↔
      ∀ block ∈ processed, block.Fits := by
  obtain ⟨log, L, rfl, built, agrees⟩ := wallet_ledger_builds apart processed s run
  have listed : ∀ h block, (L.get h).map Note.block = some block ↔ block ∈ genesisOpen node.env.network :: log ∧
    block.hash node.env = h := by
    intro h block
    rw [builds_blocks built, List.mem_cons]
    constructor
    · rintro (⟨rfl, rfl⟩ | ⟨member, rfl⟩)
      · exact ⟨.inl rfl, rfl⟩
      · exact ⟨.inr member, rfl⟩
    · rintro ⟨rfl | member, rfl⟩
      · exact .inl ⟨rfl, rfl⟩
      · exact .inr ⟨member, rfl⟩
  constructor
  · intro reads block member
    obtain ⟨n, stored, same⟩ := Option.map_eq_some_iff.mp ((listed (block.hash node.env) block).mpr ⟨member, rfl⟩)
    obtain ⟨found, other, hashed, read⟩ := reads _ (exists_stored agrees.blocks stored)
    have unique := (listed (block.hash node.env) found).mpr ⟨other, hashed⟩
    rw [stored, Option.map_some, same] at unique
    rw [Option.some.inj unique]
    exact block_get_fits s _ found read
  · intro fits h present
    obtain ⟨n, stored⟩ := Option.ne_none_iff_exists'.mp ((exists_iff agrees.blocks h).mp present)
    obtain ⟨member, hashed⟩ := (listed h n.block).mp (by rw [stored, Option.map_some])
    exact ⟨n.block, member, hashed, get_fits agrees.blocks h n stored (fits n.block member)⟩

end ReadBack

def sampleNode : WalletNode where
  env := sampleEnv
  keys := ⟨fun _ _ => 0, fun _ => genesisAccount sampleEnv.network, fun _ => 0, fun _ _ => 0⟩
  signMessage := fun _ _ _ => 0
  generateWork := fun _ => 0
  receiveMinimum := 0

def sampleHolding : WalletStore where
  entries := Table.empty.put (genesisAccount sampleEnv.network) ⟨1#256 <<< 70, 0⟩
  password := Fan.start 0 []
  walletKeyMem := Fan.start 0 []

def genesisContract (action : Bytes) : Block := ⟨.sendBlockV2 (genesisHash sampleEnv) (sampleKey 1) action, 0, 0⟩

theorem genesis_contract_created (s : Store) (info : AccountInfo) (action : Bytes)
    (opened : s.accounts.get (genesisAccount sampleEnv.network) = some info) (head : info.head = genesisHash sampleEnv) :
    WalletCall.run sampleNode s sampleHolding false (.sendV2 (genesisAccount sampleEnv.network) (sampleKey 1) action) =
      .ok (some (genesisContract action)) := by
  have unlocked : sampleHolding.validPassword sampleNode.keys = true ∧
    sampleHolding.exists (genesisAccount sampleEnv.network) = true := by
    decide +kernel
  have fetched : (sampleHolding.fetch sampleNode.keys (genesisAccount sampleEnv.network)) = .ok (some (1#256 <<< 70)) := by
    decide +kernel
  rw [WalletCall.run, sendActionV2, if_pos unlocked, opened, fetched]
  simp [require, bind, Except.bind, signedBlock, genesisContract, head, sampleNode]

theorem genesis_contract_attaches (action : Bytes) (fresh : (genesisContract action).hash sampleEnv ≠ genesisHash sampleEnv) :
    ∃ n, n.block = genesisContract action ∧ Attach sampleEnv (genesisLattice sampleEnv (genesisStamp sampleEnv.network))
      ((genesisContract action).hash sampleEnv) n := by
  have consistent := consistent_genesis sampleEnv (genesisStamp sampleEnv.network)
  have latest := (genesis_latest sampleEnv (genesisStamp sampleEnv.network) _ _).mpr ⟨rfl, rfl⟩
  have absent : Table.get (genesisLattice sampleEnv (genesisStamp sampleEnv.network))
    ((genesisContract action).hash sampleEnv) = none := by
    rw [genesisLattice, Table.get_put_ne _ _ _ _ fresh, Table.get_empty]
  have signed : (decide ((genesisAccount sampleEnv.network).toNat < 2 ^ 32) || (0 : Signature).toNat % 2 == 1) =
    false := by decide +kernel
  refine ⟨(genesisNote sampleEnv (genesisStamp sampleEnv.network)).follow (genesisContract action) genesisAmount 0, rfl, ?_⟩
  exact attach_on_latest consistent _ _ _ absent rfl latest ⟨_, latest.1, rfl⟩ signed fun spends => absurd rfl spends

theorem genesis_contract_accepted (action : Bytes) (fresh : (genesisContract action).hash sampleEnv ≠ genesisHash sampleEnv) :
    ∃ s n, WalletLedger sampleNode [genesisOpen sampleEnv.network, genesisContract action] s ∧ n.block = genesisContract action ∧
      Attach sampleEnv (genesisLattice sampleEnv (genesisStamp sampleEnv.network)) ((genesisContract action).hash sampleEnv) n ∧
      Agrees ((genesisLattice sampleEnv (genesisStamp sampleEnv.network)).put ((genesisContract action).hash sampleEnv) n) s ∧
      Reachable sampleEnv s := by
  obtain ⟨s, started, plain⟩ := genesis_initial sampleEnv 0
  have consistent := consistent_genesis sampleEnv (genesisStamp sampleEnv.network)
  have latest := (genesis_latest sampleEnv (genesisStamp sampleEnv.network) _ _).mpr ⟨rfl, rfl⟩
  obtain ⟨time, opened⟩ := account_latest consistent plain.agrees _ _ latest
  obtain ⟨n, carried, attach⟩ := genesis_contract_attaches action fresh
  have unchanged : n.block.kind ≠ .changeBlock := carried ▸ Kind.noConfusion
  have loads : (genesisContract action).loads sampleEnv action.length = true := decide_eq_true (Nat.le_refl _)
  obtain ⟨out, returned, accepted⟩ := process_accepts consistent plain.agrees (fun _ => 0) ⟨.progress, 0, 0, 0⟩
    action.length n (carried ▸ attach) ⟨fun changing => absurd changing unchanged, carried ▸ loads⟩
  have called := @WalletLedger.call sampleNode _ s s sampleHolding false _ _ action.length _ _ out (.genesis 0 s started)
    (genesis_contract_created s _ action opened rfl) (carried ▸ returned)
  rw [if_pos accepted.code] at called
  exact ⟨out.1, n, called, carried, attach, carried ▸ accepted.agrees, .process action.length _ _ s _ out
    (.genesis 0 s started) returned⟩

theorem nat_be_zeros (bytes : Bytes) (count : Nat) : natBE (bytes ++ List.replicate count 0) = natBE bytes * 256 ^ count := by
  induction count with
  | zero => simp
  | succ count ih =>
    rw [List.replicate_succ', ← List.append_assoc, nat_be_append, ih, Nat.pow_succ, ← Nat.mul_assoc, UInt8.toNat_zero, Nat.add_zero]

theorem wallet_blocks_read_back_sample : ∃ s, WalletLedger sampleNode [genesisOpen sampleEnv.network, genesisContract [1, 2]] s ∧
    ∀ h, blockExists s h = true → ∃ block ∈ [genesisOpen sampleEnv.network, genesisContract [1, 2]],
      block.hash sampleNode.env = h ∧ blockGet s h = .ok (some block) := by
  obtain ⟨s, n, run, _⟩ := genesis_contract_accepted [1, 2] (by decide +kernel)
  refine ⟨s, run, (wallet_blocks_read_back_iff sample_apart _ s run).mpr ?_⟩
  decide

def longAction : Bytes := List.replicate 65536 0

theorem long_contract_hash : (genesisContract longAction).hash sampleEnv =
    BitVec.ofNat 256 (2 + natBE (wordBytes 32 (genesisHash sampleEnv) ++ wordBytes 32 (sampleKey 1)) * 256 ^ 65536 % 1000003) :=
  congrArg (fun number => BitVec.ofNat 256 (2 + number % 1000003)) (nat_be_zeros _ 65536)

theorem long_contract_fresh : (genesisContract longAction).hash sampleEnv ≠ genesisHash sampleEnv := by
  rw [long_contract_hash]
  decide +kernel

theorem zeros_cut (previous : Hash) (destination : Account) (count : Nat) (long : 72 ≤ count) (whole : count % 65536 = 0) :
    cutAction previous destination (List.replicate count 0) 0 0 = ⟨.sendBlockV2 previous destination [], 0, 0⟩ := by
  have length : (List.replicate count (0 : UInt8)).length % 65536 = 0 := by rw [List.length_replicate, whole]
  have signature (rest : Bytes) : (List.replicate count 0 ++ rest).take 64 = List.replicate 64 0 := by
    rw [List.take_append_of_le_length (by simp; omega), List.take_replicate, Nat.min_eq_left (by omega)]
  have work (rest : Bytes) : ((List.replicate count 0 ++ rest).drop 64).take 8 = List.replicate 8 0 := by
    rw [List.drop_append_of_le_length (by simp; omega), List.drop_replicate, List.take_append_of_le_length (by simp; omega),
      List.take_replicate, Nat.min_eq_left (by omega)]
  simp only [cutAction, length, List.take_zero, List.drop_zero, signature, work]
  rfl

theorem long_contract_read (s : Store) (n : Note) (L : Lattice) (agrees : Agrees L s) (carried : n.block = genesisContract longAction)
    (stored : L.get ((genesisContract longAction).hash sampleEnv) = some n) :
    blockGet s ((genesisContract longAction).hash sampleEnv) = .ok (some (genesisContract [])) := by
  have read := get_contract agrees.blocks _ n (genesisHash sampleEnv) (sampleKey 1) longAction stored (by rw [carried]; rfl)
  have cut : cutAction (genesisHash sampleEnv) (sampleKey 1) longAction (genesisContract longAction).signature
      (genesisContract longAction).work = genesisContract [] :=
    zeros_cut (genesisHash sampleEnv) (sampleKey 1) 65536 (by decide) (by decide)
  rw [carried, cut] at read
  exact read

-- The wallet signs and the ledger accepts a call with 65536 bytes, and a block with none of them comes back.
theorem long_contract_reads_back_empty : ∃ s, WalletLedger sampleNode [genesisOpen sampleEnv.network, genesisContract longAction] s ∧
    blockExists s ((genesisContract longAction).hash sampleEnv) = true ∧
    blockGet s ((genesisContract longAction).hash sampleEnv) = .ok (some (genesisContract [])) ∧
    genesisContract [] ≠ genesisContract longAction := by
  obtain ⟨s, n, run, carried, _, agrees, _⟩ := genesis_contract_accepted longAction long_contract_fresh
  have stored := Table.get_put_self (genesisLattice sampleEnv (genesisStamp sampleEnv.network))
    ((genesisContract longAction).hash sampleEnv) n
  refine ⟨s, run, exists_stored agrees.blocks stored, long_contract_read s n _ agrees carried stored, fun same => ?_⟩
  have lengths : [] = longAction := (Hashables.sendBlockV2.inj (congrArg Block.hashables same)).2.2
  exact absurd lengths (List.cons_ne_nil _ _).symm

end Rai
