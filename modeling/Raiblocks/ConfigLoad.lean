import Raiblocks.Config

set_option autoImplicit false

namespace Rai

open Kit Trial

variable {Address : Type} (texts : ConfigTexts Address)

theorem parse_address_port_numeral {text : Text} {peer : Address × BitVec 16}
    (parsed : parseAddressPort texts text = some peer) {value : Nat} (numeral : Numeral (portText text) value) :
    BitVec.ofNat 16 value = peer.2 := by
  unfold parseAddressPort at parsed
  unfold portText at numeral
  cases found : rfind ':' text with
  | none => simp [found] at parsed
  | some position =>
      simp only [found, Option.elim] at parsed numeral
      split at parsed
      · split at parsed
        · next port scanned =>
            obtain ⟨address, _, rfl⟩ := Option.map_eq_some_iff.mp parsed
            exact ((parse_port_numeral numeral port).mp scanned).2.2
        · cases parsed
      · cases parsed

theorem decoded_into_iff (start account : Account) (source : Text) :
    decodeAccountInto texts.toTexts start source = .ok (false, account) ↔ decodeAccount texts.toTexts source = .ok (some account) := by
  rw [decode_account_into texts.toTexts start source]
  cases decodeAccountInto texts.toTexts start source with
  | error fault => simp [Except.map]
  | ok out =>
      obtain ⟨failed, later⟩ := out
      cases failed <;> simp [Except.map, unflagged]

theorem decode_dec_start (start other amount : Amount) (text : Text) :
    UInt128Union.decodeDec texts.toTexts start text = (false, amount) ↔ UInt128Union.decodeDec texts.toTexts other text =
    (false, amount) := by
  unfold UInt128Union.decodeDec decodeDec
  split
  · simp
  · cases texts.extractWide .dec 128 text <;> simp

namespace NodeConfig

def NumberRead {bits : Nat} (field : BitVec bits) (text : Text) : Prop :=
  ∃ number, stoul text = .ok number ∧ BitVec.ofNat bits number.1 = field

def AmountRead (field : Amount) (text : Text) : Prop := UInt128Union.decodeDec texts.toTexts 0 text = (false, field)

structure AcceptsNumbers (numbers : NumberTexts) (config : NodeConfig Address) : Prop where
  peeringPort : NumberRead config.peeringPort numbers.peeringPort
  bootstrapFractionNumerator : NumberRead config.bootstrapFractionNumerator numbers.bootstrapFractionNumerator
  receiveMinimum : AmountRead texts config.receiveMinimum numbers.receiveMinimum
  inactiveSupply : AmountRead texts config.inactiveSupply numbers.inactiveSupply
  passwordFanout : NumberRead config.passwordFanout numbers.passwordFanout
  fanoutBounds : 16 ≤ config.passwordFanout.toNat ∧ config.passwordFanout.toNat ≤ 1024 * 1024
  ioThreads : NumberRead config.ioThreads numbers.ioThreads
  workThreads : NumberRead config.workThreads numbers.workThreads
  threaded : config.ioThreads ≠ 0 ∧ config.workThreads ≠ 0
  bootstrapConnections : NumberRead config.bootstrapConnections numbers.bootstrapConnections
  lmdbMaxDbs : stoi numbers.lmdbMaxDbs = .ok config.lmdbMaxDbs

structure AcceptsLists (tree : PropertyTree) (config : NodeConfig Address) : Prop where
  workPeers : ∃ child, tree.getChild "work_peers" = some child ∧
    List.Forall₂ (fun entry peer => parseAddressPort texts entry.2.data = some peer) child.members config.workPeers
  preconfiguredPeers : ∃ child, tree.getChild "preconfigured_peers" = some child ∧
    child.members.map (fun entry => entry.2.data) = config.preconfiguredPeers
  preconfiguredRepresentatives : ∃ child, tree.getChild "preconfigured_representatives" = some child ∧
    List.Forall₂ (fun entry account => decodeAccount texts.toTexts entry.2.data = .ok (some account)) child.members
      config.preconfiguredRepresentatives
  represented : config.preconfiguredRepresentatives ≠ []

structure Holds (tree : PropertyTree) (numbers : NumberTexts) : Prop where
  peeringPort : tree.get "peering_port" = some numbers.peeringPort
  bootstrapFractionNumerator : tree.get "bootstrap_fraction_numerator" = some numbers.bootstrapFractionNumerator
  receiveMinimum : tree.get "receive_minimum" = some numbers.receiveMinimum
  inactiveSupply : tree.get "inactive_supply" = some numbers.inactiveSupply
  passwordFanout : tree.get "password_fanout" = some numbers.passwordFanout
  ioThreads : tree.get "io_threads" = some numbers.ioThreads
  workThreads : tree.get "work_threads" = some numbers.workThreads
  bootstrapConnections : tree.get "bootstrap_connections" = some numbers.bootstrapConnections
  lmdbMaxDbs : tree.get "lmdb_max_dbs" = some numbers.lmdbMaxDbs

-- What a tree of the current version has to hold, and the configuration it stands for. The logging tree is apart.
structure Accepts (tree : PropertyTree) (config : NodeConfig Address) : Prop extends AcceptsLists texts tree config where
  numbers : ∃ numbers, Holds tree numbers ∧ AcceptsNumbers texts numbers config
  enableVoting : (tree.get "enable_voting").bind texts.readFlag = some config.enableVoting
  callbackAddress : tree.get "callback_address" = some config.callbackAddress
  callbackPort : ∃ text, tree.get "callback_port" = some text ∧ parsePort text = .ok (false, config.callbackPort)
  callbackTarget : tree.get "callback_target" = some config.callbackTarget

section Fields

variable (s : Loading (NodeConfig Address))

@[simp] theorem load_number {bits : Nat} (text : Text) (set : NodeConfig Address → BitVec bits → NodeConfig Address)
    (post : Unit → Loading (NodeConfig Address) → Prop) : Meets (loadNumber text set) s post ↔
      ∃ number, stoul text = .ok number ∧ post () { s with object := set s.object (BitVec.ofNat bits number.1) } := by
  simp [loadNumber, Loader.store]

@[simp] theorem load_amount (text : Text) (amount : NodeConfig Address → Amount)
    (set : NodeConfig Address → Amount → NodeConfig Address) (post : Bool → Loading (NodeConfig Address) → Prop) :
    Meets (loadAmount texts text amount set) s post ↔
      post (UInt128Union.decodeDec texts.toTexts (amount s.object) text).1
        { s with object := set s.object (UInt128Union.decodeDec texts.toTexts (amount s.object) text).2 } := by
  simp only [loadAmount, meets_bind, Loader.current, meets_observe, Option.some.injEq, exists_eq_left', Loader.store,
    meets_assign, meets_pure]

end Fields

def numbersLoaded (s : Loading (NodeConfig Address)) (config : NodeConfig Address) (loaded : Loading Logging) :
    Loading (NodeConfig Address) where
  object := { s.object with
    peeringPort := config.peeringPort
    logging := loaded.object
    bootstrapFractionNumerator := config.bootstrapFractionNumerator
    receiveMinimum := config.receiveMinimum
    inactiveSupply := config.inactiveSupply
    passwordFanout := config.passwordFanout
    ioThreads := config.ioThreads
    workThreads := config.workThreads
    bootstrapConnections := config.bootstrapConnections
    lmdbMaxDbs := config.lmdbMaxDbs }
  upgraded := loaded.upgraded
  tree := s.tree.setChild "logging" loaded.tree

section Refusing

variable {s : Loading (NodeConfig Address)} (post : Bool → Loading (NodeConfig Address) → Prop) (refuses : ∀ t, ¬ post true t)
include refuses

theorem refusing_iff (failed : Bool) (t : Loading (NodeConfig Address)) : post failed t ↔ failed = false ∧ post false t := by
  cases failed with
  | true => simp [refuses t]
  | false => simp

theorem work_peers_refused (entries : List (String × PropertyTree)) : ¬ Meets (loadWorkPeers texts true entries) s post := by
  induction entries with
  | nil => simp [loadWorkPeers, refuses]
  | cons entry rest ih => simpa [loadWorkPeers] using ih

theorem load_work_peers (entries : List (String × PropertyTree)) : Meets (loadWorkPeers texts false entries) s post ↔
    ∃ peers, List.Forall₂ (fun entry peer => parseAddressPort texts entry.2.data = some peer) entries peers ∧
      post false { s with object := { s.object with workPeers := s.object.workPeers ++ peers } } := by
  induction entries generalizing s with
  | nil => simp [loadWorkPeers]
  | cons entry rest ih =>
      cases parsed : parseAddressPort texts entry.2.data with
      | none =>
          have refused := work_peers_refused texts post refuses rest (s := s)
          simp [loadWorkPeers, parsed, refused, List.forall₂_cons_left_iff]
      | some peer => simp [loadWorkPeers, parsed, Loader.store, ih, List.forall₂_cons_left_iff]

theorem representatives_refused (entries : List (String × PropertyTree)) : ¬ Meets (loadRepresentatives texts true entries) s post := by
  induction entries generalizing s with
  | nil => simp [loadRepresentatives, refuses]
  | cons entry rest ih => simp [loadRepresentatives, Loader.store, ih]

theorem load_representatives (entries : List (String × PropertyTree)) : Meets (loadRepresentatives texts false entries) s post ↔
    ∃ accounts, List.Forall₂ (fun entry account => decodeAccount texts.toTexts entry.2.data = .ok (some account)) entries accounts ∧
      post false
      { s with object := { s.object with preconfiguredRepresentatives := s.object.preconfiguredRepresentatives ++ accounts } } := by
  induction entries generalizing s with
  | nil => simp [loadRepresentatives]
  | cons entry rest ih =>
      have decoded := fun account => decoded_into_iff texts 0 account entry.2.data
      simp only [loadRepresentatives, Bool.false_eq_true, if_false, meets_bind, meets_called, Loader.store, meets_assign,
        List.forall₂_cons_left_iff]
      constructor
      · rintro ⟨⟨failed, account⟩, returned, met⟩
        cases failed with
        | true => exact absurd met (representatives_refused texts post refuses rest)
        | false =>
            obtain ⟨accounts, others, met⟩ := ih.mp met
            refine ⟨account :: accounts, ⟨account, accounts, (decoded account).mp returned, others, rfl⟩, ?_⟩
            simpa using met
      · rintro ⟨_, ⟨account, accounts, first, others, rfl⟩, met⟩
        refine ⟨(false, account), (decoded account).mpr first, ih.mpr ⟨accounts, others, ?_⟩⟩
        simpa using met

theorem representative_list_refused : ¬ Meets (loadPreconfiguredRepresentatives texts true) s post := by
  have refused := fun entries s => representatives_refused texts (s := s)
    (fun result u => post (result || u.object.preconfiguredRepresentatives.isEmpty) u) (by simp [refuses]) entries
  simp only [loadPreconfiguredRepresentatives, meets_bind, Loader.store, meets_assign, Loader.child, meets_observe, Loader.current,
    meets_pure, Option.some.injEq, exists_eq_left', refused, and_false, exists_false, not_false_eq_true]

theorem load_representative_list : Meets (loadPreconfiguredRepresentatives texts false) s post ↔ ∃ child accounts,
    s.tree.getChild "preconfigured_representatives" = some child ∧
    List.Forall₂ (fun entry account => decodeAccount texts.toTexts entry.2.data = .ok (some account)) child.members accounts ∧
    accounts ≠ [] ∧
    post false { s with object := { s.object with preconfiguredRepresentatives := accounts } } := by
  have read := fun entries s => load_representatives texts (s := s)
    (fun result u => post (result || u.object.preconfiguredRepresentatives.isEmpty) u) (by simp [refuses]) entries
  simp only [loadPreconfiguredRepresentatives, meets_bind, Loader.store, meets_assign, Loader.child, meets_observe, Loader.current,
    meets_pure, Option.some.injEq, exists_eq_left', read, List.nil_append, Bool.false_or]
  refine exists_congr fun child => ?_
  rw [← exists_and_left]
  refine exists_congr fun accounts => and_congr_right fun _ => and_congr_right fun _ => ?_
  rw [refusing_iff post refuses, List.isEmpty_eq_false_iff]

theorem load_lists : Meets (loadLists texts) s post ↔ ∃ config, AcceptsLists texts s.tree config ∧
    post false { s with object := { s.object with
      workPeers := config.workPeers
      preconfiguredPeers := config.preconfiguredPeers
      preconfiguredRepresentatives := config.preconfiguredRepresentatives } } := by
  have failed : ∀ t, ¬ Meets loadPreconfiguredPeers t fun _ u => Meets (loadPreconfiguredRepresentatives texts true) u post := by
    rintro t ⟨_, u, _, met⟩
    exact representative_list_refused texts post refuses met
  have peers := fun entries s => load_work_peers texts (s := s)
    (fun result u => Meets loadPreconfiguredPeers u fun _ v => Meets (loadPreconfiguredRepresentatives texts result) v post)
    failed entries
  simp only [loadLists, meets_bind, Loader.store, meets_assign, Loader.child, meets_observe, peers, List.nil_append]
  simp only [loadPreconfiguredPeers, meets_bind, Loader.store, meets_assign, Loader.child, meets_observe,
    load_representative_list texts post refuses]
  constructor
  · rintro ⟨workPeers, found, kept, parsed, preconfigured, found', representatives, accounts, found'', decoded, filled, met⟩
    exact ⟨{ s.object with workPeers := kept, preconfiguredPeers := _, preconfiguredRepresentatives := accounts },
      ⟨⟨workPeers, found, parsed⟩, ⟨preconfigured, found', rfl⟩, ⟨representatives, found'', decoded⟩, filled⟩, met⟩
  · rintro ⟨config, ⟨⟨workPeers, found, parsed⟩, ⟨preconfigured, found', same⟩,
      ⟨representatives, found'', decoded⟩, filled⟩, met⟩
    refine ⟨workPeers, found, config.workPeers, parsed, preconfigured, found', representatives, _, found'', decoded, filled, ?_⟩
    rw [same]
    exact met

theorem load_numbers (numbers : NumberTexts) (logging : PropertyTree) (result : Bool) :
    Meets (loadNumbers texts numbers logging result) s post ↔ result = false ∧ ∃ config, AcceptsNumbers texts numbers config ∧
      Meets (Logging.deserializeJson texts) ⟨s.object.logging, s.upgraded, logging⟩ fun failed loaded =>
        failed = false ∧ post false (numbersLoaded s config loaded) := by
  rw [loadNumbers, meets_catching _ _ _ _ refuses]
  simp only [meets_bind, load_number, load_amount, meets_tried, Loader.store, meets_assign, Loader.current, meets_observe, meets_pure,
    Option.some.injEq, exists_eq_left', loadLogging, meets_within, refusing_iff post refuses (_ || _), Bool.or_eq_false_iff]
  constructor
  · rintro ⟨port, readPort, fraction, readFraction, fanout, readFanout, io, readIo, work, readWork, connections,
      readConnections, dbs, readDbs, failed, loaded, returned,
      ⟨⟨⟨⟨⟨⟨⟨⟨good, _⟩, logged⟩, minimum⟩, supply⟩, low⟩, high⟩, noIo⟩, noWork⟩, met⟩
    refine ⟨good, { s.object with
        peeringPort := BitVec.ofNat 16 port.1
        bootstrapFractionNumerator := BitVec.ofNat 32 fraction.1
        receiveMinimum := (UInt128Union.decodeDec texts.toTexts s.object.receiveMinimum numbers.receiveMinimum).2
        inactiveSupply := (UInt128Union.decodeDec texts.toTexts s.object.inactiveSupply numbers.inactiveSupply).2
        passwordFanout := BitVec.ofNat 32 fanout.1
        ioThreads := BitVec.ofNat 32 io.1
        workThreads := BitVec.ofNat 32 work.1
        bootstrapConnections := BitVec.ofNat 32 connections.1
        lmdbMaxDbs := dbs },
      ⟨⟨port, readPort, rfl⟩, ⟨fraction, readFraction, rfl⟩, ?_, ?_, ⟨fanout, readFanout, rfl⟩, ?_, ⟨io, readIo, rfl⟩,
        ⟨work, readWork, rfl⟩, ?_, ⟨connections, readConnections, rfl⟩, readDbs⟩, failed, loaded, returned, logged, met⟩
    · exact (decode_dec_start texts _ _ _ _).mp (Prod.ext minimum rfl)
    · exact (decode_dec_start texts _ _ _ _).mp (Prod.ext supply rfl)
    · exact ⟨Nat.le_of_not_lt (of_decide_eq_false low), Nat.le_of_not_lt (of_decide_eq_false high)⟩
    · exact ⟨of_decide_eq_false noIo, of_decide_eq_false noWork⟩
  · rintro ⟨good, config, ⟨⟨port, readPort, samePort⟩, ⟨fraction, readFraction, sameFraction⟩, minimum, supply,
      ⟨fanout, readFanout, sameFanout⟩, bounds, ⟨io, readIo, sameIo⟩, ⟨work, readWork, sameWork⟩, threads,
      ⟨connections, readConnections, sameConnections⟩, readDbs⟩, failed, loaded, returned, logged, met⟩
    have minimum := (decode_dec_start texts _ s.object.receiveMinimum _ _).mp minimum
    have supply := (decode_dec_start texts _ s.object.inactiveSupply _ _).mp supply
    have sameMinimum : _ = config.receiveMinimum := congrArg Prod.snd minimum
    have sameSupply : _ = config.inactiveSupply := congrArg Prod.snd supply
    rw [← sameFanout] at bounds
    rw [← sameIo, ← sameWork] at threads
    rw [numbersLoaded, ← samePort, ← sameFraction, ← sameFanout, ← sameIo, ← sameWork, ← sameConnections,
      ← sameMinimum, ← sameSupply] at met
    refine ⟨port, readPort, fraction, readFraction, fanout, readFanout, io, readIo, work, readWork, connections, readConnections,
      config.lmdbMaxDbs, readDbs, failed, loaded, returned,
      ⟨⟨⟨⟨⟨⟨⟨⟨good, ?_⟩, logged⟩, ?_⟩, ?_⟩, ?_⟩, ?_⟩, ?_⟩, ?_⟩, met⟩
    · exact decide_eq_false (Nat.not_lt.mpr (Nat.le_of_lt_succ (BitVec.isLt _)))
    · exact congrArg Prod.fst minimum
    · exact congrArg Prod.fst supply
    · exact decide_eq_false (Nat.not_lt.mpr bounds.1)
    · exact decide_eq_false (Nat.not_lt.mpr bounds.2)
    · exact decide_eq_false threads.1
    · exact decide_eq_false threads.2

section Members

variable (first second third : Text) (logging : PropertyTree)

theorem members_refused : ¬ Meets (loadMembers texts first second third logging true) s post := by
  simp only [loadMembers, meets_bind, Loader.text, meets_observe, Loader.store, meets_assign, meets_tried,
    load_numbers texts post refuses, Bool.true_or, Bool.true_eq_false, false_and, and_false, exists_false, not_false_eq_true]

end Members

theorem loads_iff (uninit : Nat → Account) : Meets (deserializeJson texts uninit) s post ↔
    Meets (Loader.upgrade (upgradeJson texts uninit)) s fun _ u => ∃ config logging, Accepts texts u.tree config ∧
      u.tree.getChild "logging" = some logging ∧
      Meets (Logging.deserializeJson texts) ⟨u.object.logging, u.upgraded, logging⟩ fun failed loaded =>
        failed = false ∧ post false ⟨{ config with logging := loaded.object }, loaded.upgraded,
        u.tree.setChild "logging" loaded.tree⟩ := by
  rw [deserializeJson, meets_catching _ _ _ _ refuses, meets_bind]
  refine meets_congr fun _ u => ?_
  have lists := fun first second third logging s => load_lists texts (s := s)
    (fun result v => Meets (loadMembers texts first second third logging result) v post) fun t =>
    members_refused texts post refuses first second third logging
  simp only [meets_bind, Loader.text, Loader.child, meets_observe, lists]
  simp only [loadMembers, meets_bind, Loader.text, meets_observe, Loader.store, meets_assign, meets_tried,
    load_numbers texts post refuses, Bool.false_or]
  constructor
  · rintro ⟨port, foundPort, fraction, foundFraction, minimum, foundMinimum, logging, foundLogging, lists, acceptsLists,
      supply, foundSupply, fanout, foundFanout, io, foundIo, work, foundWork, voting, readVoting, connections, foundConnections,
      address, foundAddress, callback, foundCallback, target, foundTarget, dbs, foundDbs, ⟨failed, callbackPort⟩, parsed, good, numbers,
      acceptsNumbers, met⟩
    subst good
    refine ⟨{ numbers with
        workPeers := lists.workPeers
        preconfiguredPeers := lists.preconfiguredPeers
        preconfiguredRepresentatives := lists.preconfiguredRepresentatives
        enableVoting := voting
        callbackAddress := address
        callbackPort := callbackPort
        callbackTarget := target }, logging, ?_, foundLogging, met⟩
    have held : Holds u.tree ⟨port, fraction, minimum, supply, fanout, io, work, connections, dbs⟩ :=
      ⟨foundPort, foundFraction, foundMinimum, foundSupply, foundFanout, foundIo, foundWork, foundConnections, foundDbs⟩
    obtain ⟨workPeers, peers, representatives, filled⟩ := acceptsLists
    obtain ⟨readPort, readFraction, readMinimum, readSupply, readFanout, bounds, readIo, readWork, threads, readConnections,
      readDbs⟩ := acceptsNumbers
    exact ⟨⟨workPeers, peers, representatives, filled⟩, ⟨_, held, readPort, readFraction, readMinimum, readSupply,
      readFanout, bounds, readIo, readWork, threads, readConnections, readDbs⟩, readVoting, foundAddress,
      ⟨callback, foundCallback, parsed⟩, foundTarget⟩
  · rintro ⟨config, logging, ⟨acceptsLists, ⟨numbers, held, acceptsNumbers⟩, readVoting, foundAddress,
      ⟨callback, foundCallback, parsed⟩, foundTarget⟩, foundLogging, met⟩
    exact ⟨numbers.peeringPort, held.peeringPort, numbers.bootstrapFractionNumerator, held.bootstrapFractionNumerator,
      numbers.receiveMinimum, held.receiveMinimum, logging, foundLogging, config, acceptsLists, numbers.inactiveSupply,
      held.inactiveSupply, numbers.passwordFanout, held.passwordFanout, numbers.ioThreads, held.ioThreads, numbers.workThreads,
      held.workThreads, config.enableVoting, readVoting, numbers.bootstrapConnections, held.bootstrapConnections,
      config.callbackAddress, foundAddress, callback, foundCallback, config.callbackTarget, foundTarget, numbers.lmdbMaxDbs,
      held.lmdbMaxDbs, (false, config.callbackPort), parsed, rfl, config, acceptsNumbers, met⟩

end Refusing

end NodeConfig

section Versions

variable {σ : Type} {s : Loading σ}

def VersionIs (tree : PropertyTree) (version : Nat) : Prop :=
  (∃ text, tree.get "version" = some text ∧ Numeral text version) ∨ tree.get "version" = none ∧ version = 1

def stated (s : Loading σ) : Loading σ :=
  if (s.tree.get "version").isSome then s else { s with tree := Loader.unversioned s.tree, upgraded := true }

theorem upgrade_iff {version : Nat} (known : VersionIs s.tree version) (small : version < 2 ^ 32) (upgradeJson : Nat → Loader σ Bool)
    (post : Unit → Loading σ → Prop) : Meets (Loader.upgrade upgradeJson) s post ↔
      Meets (upgradeJson version) (stated s) fun upgraded u => post () { u with upgraded := u.upgraded || upgraded } := by
  have narrow : version % 2 ^ 32 = version := Nat.mod_eq_of_lt small
  have short : ¬ 2 ^ 64 ≤ version := by omega
  simp only [Loader.upgrade, meets_bind, meets_tried, meets_assign]
  rcases known with ⟨text, found, numeral⟩ | ⟨missing, rfl⟩
  · have returned : (Loader.statedVersion : Loader σ Text).run s = .ok (.ok text, s) := by
      simp [Loader.statedVersion, ExceptT.run, ExceptT.mk, found]
    have start : stated s = s := by simp [stated, found]
    have read : stoull text = .ok (version, text.length) := (stoul_numeral numeral).trans (if_neg short)
    rw [meets_returned returned, start]
    simp only [read, Except.ok.injEq, exists_eq_left', narrow]
  · have returned : (Loader.statedVersion : Loader σ Text).run s = .ok (.ok "1".toList, stated s) := by
      simp [Loader.statedVersion, ExceptT.run, ExceptT.mk, missing, stated]
    have read : stoull "1".toList = .ok (1, 1) := by decide
    rw [meets_returned returned]
    simp only [read, Except.ok.injEq, exists_eq_left', narrow]

end Versions

end Rai
