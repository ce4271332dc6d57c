import Mathlib.Tactic.IntervalCases
import Raiblocks.ConfigSave

set_option autoImplicit false

namespace Rai

open Kit Trial

variable {Address : Type} (texts : ConfigTexts Address)

def Decimal (least limit : Nat) (text : Text) : Prop := ∃ value, Numeral text value ∧ ¬ LeadingZero text ∧ least ≤ value ∧ value < limit

def Has (tree : PropertyTree) (name : String) (valid : Text → Prop) : Prop := ∃ text, tree.get name = some text ∧ valid text

def PeerText (text : Text) : Prop :=
  ∃ address port, text = address ++ ':' :: port ∧ address ≠ [] ∧ (texts.readAddress address).isSome ∧ Decimal 0 (2 ^ 16) port

-- The logging tree of its two versions: the first has no flag for votes.
structure DefinesLogging (v : Nat) (tree : PropertyTree) : Prop where
  version : VersionIs tree v
  flags : ∀ flag ∈ loggingFlags, (flag.name = "vote" → v = 2) → Has tree flag.name fun text => (texts.readFlag text).isSome
  maxSize : Has tree "max_size" (Decimal 0 (2 ^ 64))

-- The members that a version of the tree defines, with values that are valid. A tree without a version need not have work
-- peers.
structure Defines (v : Nat) (tree : PropertyTree) : Prop where
  version : VersionIs tree v
  peeringPort : Has tree "peering_port" (Decimal 0 (2 ^ 16))
  bootstrapFractionNumerator : Has tree "bootstrap_fraction_numerator" (Decimal 0 (2 ^ 32))
  receiveMinimum : Has tree "receive_minimum" (Decimal 0 (2 ^ 128))
  delays : v ≤ 5 → ∀ name ∈ ["packet_delay_microseconds", "creation_rebroadcast", "rebroadcast_delay"],
    Has tree name (Decimal 0 (2 ^ 32))
  logging : ∃ child number, tree.getChild "logging" = some child ∧ (number = 1 ∨ number = 2) ∧ DefinesLogging texts number child
  workPeers : (tree.get "version").isSome → (tree.getChild "work_peers").isSome
  workPeerTexts : ∀ child, tree.getChild "work_peers" = some child → ∀ entry ∈ child.members, PeerText texts entry.2.data
  preconfiguredPeers : (tree.getChild "preconfigured_peers").isSome
  preconfiguredRepresentatives : ∃ child, tree.getChild "preconfigured_representatives" = some child ∧ child.members ≠ [] ∧
    ∀ entry ∈ child.members, ∃ account, decodeAccount texts.toTexts entry.2.data = .ok (some account)
  inactiveSupply : 3 ≤ v → Has tree "inactive_supply" (Decimal 0 (2 ^ 128))
  passwordFanout : 3 ≤ v → Has tree "password_fanout" (Decimal 16 (1024 * 1024 + 1))
  ioThreads : 3 ≤ v → Has tree "io_threads" (Decimal 1 (2 ^ 32))
  workThreads : 3 ≤ v → Has tree "work_threads" (Decimal 1 (2 ^ 32))
  enableVoting : 6 ≤ v → Has tree "enable_voting" fun text => (texts.readFlag text).isSome
  bootstrapConnections : 7 ≤ v → Has tree "bootstrap_connections" (Decimal 0 (2 ^ 32))
  callbackAddress : 7 ≤ v → Has tree "callback_address" fun _ => True
  callbackPort : 7 ≤ v → Has tree "callback_port" (Decimal 0 (2 ^ 16))
  callbackTarget : 7 ≤ v → Has tree "callback_target" fun _ => True

section Values

variable {text : Text} {least limit : Nat}

theorem decimal_number (bits : Nat) (room : limit ≤ 2 ^ bits) (short : bits ≤ 64) (valid : Decimal least limit text) :
    ∃ field : BitVec bits, NodeConfig.NumberRead field text ∧ least ≤ field.toNat ∧ field.toNat < limit := by
  obtain ⟨value, numeral, _, low, high⟩ := valid
  have fits : value < 2 ^ bits := high.trans_le room
  have small : ¬ 2 ^ 64 ≤ value := Nat.not_le.mpr (fits.trans_le (Nat.pow_le_pow_right (by decide) short))
  refine ⟨BitVec.ofNat bits value, ⟨(value, text.length), ?_, rfl⟩, ?_⟩
  · rw [stoul_numeral numeral, if_neg small]
  · rw [BitVec.toNat_ofNat, Nat.mod_eq_of_lt fits]
    exact ⟨low, high⟩

theorem decimal_amount (valid : Decimal 0 (2 ^ 128) text) : ∃ amount, NodeConfig.AmountRead texts amount text := by
  obtain ⟨value, numeral, plain, _, high⟩ := valid
  have read := texts.extract_wide_digits .dec 128 text value numeral.2 numeral.1 high
  have decoded := decode_dec_digits text value numeral.2 numeral.1 texts.toTexts 128 39 0 fun plain => by
    rw [Nat.mod_eq_of_lt high]
    exact read plain
  rcases decoded with ⟨refused | long, _⟩ | ⟨_, taken⟩
  · exact absurd refused plain
  · have large := decimal_length text value numeral.2 numeral.1 plain 39 long (by decide)
    have room : (2 : Nat) ^ 128 ≤ 10 ^ 39 := by decide
    omega
  · exact ⟨_, taken⟩

theorem decimal_port (valid : Decimal 0 (2 ^ 16) text) : ∃ port, parsePort text = .ok (false, port) := by
  obtain ⟨value, numeral, plain, _, high⟩ := valid
  exact ⟨BitVec.ofNat 16 value, (parse_port_numeral numeral _).mpr ⟨by omega, short_port numeral plain high, rfl⟩⟩

theorem peer_text_parsed (valid : PeerText texts text) : ∃ peer, parseAddressPort texts text = some peer := by
  obtain ⟨address, port, rfl, filled, readable, decimal⟩ := valid
  obtain ⟨number, scanned⟩ := decimal_port decimal
  obtain ⟨value, numeral, _⟩ := decimal
  obtain ⟨read, known⟩ := Option.isSome_iff_exists.mp readable
  refine ⟨(read, number), ?_⟩
  have position : address.length > 0 := List.length_pos_iff.mpr filled
  rw [parseAddressPort, rfind_last address ':' port (numeral_no_colon numeral)]
  simp [position, scanned, known]

end Values

section LoggingTree

variable {s : Loading Logging}

theorem flags_loaded (flags : List LoggingFlag) (post : Unit → Loading Logging → Prop)
    (readable : ∀ flag ∈ flags, Has s.tree flag.name fun text => (texts.readFlag text).isSome)
    (met : ∀ logging, post () { s with object := logging }) : Meets (flags.forM (Logging.loadFlag texts)) s post := by
  induction flags generalizing s with
  | nil => simpa using met s.object
  | cons flag flags ih =>
      obtain ⟨⟨text, found, known⟩, others⟩ := List.forall_mem_cons.mp readable
      obtain ⟨value, read⟩ := Option.isSome_iff_exists.mp known
      show Meets (Logging.loadFlag texts flag >>= fun _ => flags.forM (Logging.loadFlag texts)) s post
      simp only [Logging.loadFlag, Loader.store, meets_bind, meets_observe, meets_assign]
      exact ⟨value, by rw [found]; exact read, ih others met⟩

structure LoggingReadable (tree : PropertyTree) : Prop where
  flags : ∀ flag ∈ loggingFlags, Has tree flag.name fun text => (texts.readFlag text).isSome
  maxSize : Has tree "max_size" (Decimal 0 (2 ^ 64))

theorem logging_unmarked : ∀ flag ∈ loggingFlags, flag.name ≠ "version" ∧ flag.name ≠ "work_peers" := by
  decide

theorem stated_other {σ : Type} (s : Loading σ) (name : String) (unmarked : name ≠ "version" ∧ name ≠ "work_peers") :
    (stated s).tree.getChild name = s.tree.getChild name := by
  unfold stated
  split
  · rfl
  · simp only [Loader.unversioned]
    split <;> simp [unmarked.1.symm, unmarked.2.symm]

theorem stated_has {σ : Type} {s : Loading σ} {name : String} (unmarked : name ≠ "version" ∧ name ≠ "work_peers") {valid : Text → Prop}
    (has : Has s.tree name valid) : Has (stated s).tree name valid := by
  rw [Has, PropertyTree.get, stated_other s name unmarked]
  exact has

theorem stated_upgraded {σ : Type} (s : Loading σ) (upgraded : s.upgraded = true) : (stated s).upgraded = true := by
  unfold stated
  split
  · exact upgraded
  · rfl

theorem has_put {tree : PropertyTree} {name other : String} (text : Text) {valid : Text → Prop} (different : name ≠ other)
    (has : Has tree other valid) : Has (tree.put name text) other valid := by
  rw [Has, PropertyTree.get_put, if_neg different]
  exact has

theorem logging_upgraded {v : Nat} (known : v = 1 ∨ v = 2) (defines : DefinesLogging texts v s.tree)
    (post : Unit → Loading Logging → Prop) (met : ∀ u, LoggingReadable texts u.tree →
    (s.upgraded = true → u.upgraded = true) → post () u) :
    Meets (Loader.upgrade Logging.upgradeJson) s post := by
  have size := stated_has (s := s) (by decide) defines.maxSize
  have flags := fun flag member stays => stated_has (s := s) (logging_unmarked flag member) (defines.flags flag member stays)
  have upgraded := fun before => stated_upgraded s before
  rcases known with rfl | rfl
  · rw [upgrade_iff defines.version (by decide)]
    simp only [Logging.upgradeJson, meets_bind, Loader.current, meets_observe, Option.some.injEq, exists_eq_left', Loader.amend,
      meets_assign, meets_pure]
    refine met _ ⟨fun flag member => ?_, ?_⟩ fun _ => Bool.or_true _
    · have unmarked := logging_unmarked flag member
      refine has_put _ (Ne.symm unmarked.1) ?_
      by_cases vote : flag.name = "vote"
      · refine ⟨flagText (stated s).object.voteLogging, ?_, ?_⟩
        · rw [PropertyTree.get_put, if_pos vote.symm]
        · exact Option.isSome_iff_exists.mpr ⟨_, texts.flag_read _⟩
      · exact has_put _ (Ne.symm vote) (flags flag member fun same => absurd same vote)
    · exact has_put _ (by decide) (has_put _ (by decide) size)
  · rw [upgrade_iff defines.version (by decide)]
    simp only [Logging.upgradeJson, meets_pure, Bool.or_false]
    exact met _ ⟨fun flag member => flags flag member fun _ => rfl, size⟩ upgraded

theorem logging_loaded {v : Nat} (known : v = 1 ∨ v = 2) (defines : DefinesLogging texts v s.tree) :
    Meets (Logging.deserializeJson texts) s fun failed loaded => failed = false ∧ (s.upgraded = true → loaded.upgraded = true) := by
  rw [Logging.deserializeJson, meets_catching _ _ _ _ (by simp), meets_bind]
  refine logging_upgraded texts known defines _ fun u readable upgraded => ?_
  rw [meets_bind]
  refine flags_loaded texts loggingFlags _ readable.flags fun logging => ?_
  obtain ⟨text, found, value, numeral, _, _, small⟩ := readable.maxSize
  simp only [meets_bind, meets_observe, Loader.store, meets_assign, meets_pure]
  exact ⟨_, by rw [found]; exact texts.size_read text value numeral.2 numeral.1 small, trivial, upgraded⟩

end LoggingTree

namespace NodeConfig

def nextVersion : Nat → String
  | 1 => "4"
  | 2 => "4"
  | 3 => "4"
  | 4 => "5"
  | 5 => "6"
  | 6 => "7"
  | _ => "8"

@[simp] theorem set_version (tree : PropertyTree) (version : String) :
    (setVersion tree version).get "version" = some version.toList := by
  rw [setVersion, PropertyTree.get_put, if_pos rfl]

variable (uninit : Nat → Account) {s : Loading (NodeConfig Address)}

theorem renewed_version (version : String) (post : Unit → Loading (NodeConfig Address) → Prop)
    (met : Meets (renewMinimum version) s post) :
    ∃ u, u.tree.get "version" = some version.toList ∧ post () u := by
  simp only [renewMinimum, Loader.amend, meets_assign] at met
  exact ⟨_, set_version _ _, met⟩

theorem upgraded_version (v : Nat) (old : 1 ≤ v ∧ v ≤ 7) (post : Bool → Loading (NodeConfig Address) → Prop)
    (met : Meets (upgradeJson texts uninit v) s post) : ∃ u, u.tree.get "version" = some (nextVersion v).toList ∧ post true u := by
  obtain ⟨low, high⟩ := old
  interval_cases v
  all_goals simp only [upgradeJson, meets_bind, meets_pure] at met
  · obtain ⟨_, u, _, met⟩ := met
    obtain ⟨_, v, _, met⟩ := met
    exact renewed_version "4" _ met
  · obtain ⟨_, u, _, met⟩ := met
    exact renewed_version "4" _ met
  · exact renewed_version "4" _ met
  · exact renewed_version "5" _ met
  · simp only [fromVersion5, meets_bind, Loader.current, meets_observe, Option.some.injEq, exists_eq_left', Loader.amend,
      meets_assign] at met
    exact ⟨_, set_version _ _, met⟩
  · simp only [fromVersion6, Loader.amend, meets_assign] at met
    exact ⟨_, set_version _ _, met⟩
  · simp only [fromVersion7, Loader.amend, meets_assign] at met
    exact ⟨_, by rw [PropertyTree.get_put, if_pos rfl]; rfl, met⟩

def upgraded7 (tree : PropertyTree) : PropertyTree := (tree.put "lmdb_max_dbs" "128".toList).put "version" "8".toList

theorem upgraded_has {tree : PropertyTree} {name : String} {valid : Text → Prop} (unmarked : "lmdb_max_dbs" ≠ name ∧ "version" ≠ name)
    (has : Has tree name valid) : Has (upgraded7 tree) name valid :=
  has_put _ unmarked.2 (has_put _ unmarked.1 has)

theorem upgraded_child (tree : PropertyTree) {name : String} (unmarked : "lmdb_max_dbs" ≠ name ∧ "version" ≠ name) :
    (upgraded7 tree).getChild name = tree.getChild name := by
  rw [upgraded7, PropertyTree.child_put_other _ _ _ _ unmarked.2, PropertyTree.child_put_other _ _ _ _ unmarked.1]

theorem chosen_list {α β : Type} {r : α → β → Prop} (l : List α) (some : ∀ a ∈ l, ∃ b, r a b) :
    ∃ chosen, List.Forall₂ r l chosen := by
  induction l with
  | nil => exact ⟨[], .nil⟩
  | cons a l ih =>
      obtain ⟨⟨b, here⟩, others⟩ := List.forall_mem_cons.mp some
      obtain ⟨chosen, rest⟩ := ih others
      exact ⟨b :: chosen, .cons here rest⟩

theorem version7_numbers {tree : PropertyTree} (defines : Defines texts 7 tree) (before : NodeConfig Address) :
    ∃ numbers config, Holds (upgraded7 tree) numbers ∧ AcceptsNumbers texts numbers config := by
  obtain ⟨port, foundPort, validPort⟩ := upgraded_has (by decide) defines.peeringPort
  obtain ⟨fraction, foundFraction, validFraction⟩ := upgraded_has (by decide) defines.bootstrapFractionNumerator
  obtain ⟨minimum, foundMinimum, validMinimum⟩ := upgraded_has (by decide) defines.receiveMinimum
  obtain ⟨supply, foundSupply, validSupply⟩ := upgraded_has (by decide) (defines.inactiveSupply (by decide))
  obtain ⟨fanout, foundFanout, validFanout⟩ := upgraded_has (by decide) (defines.passwordFanout (by decide))
  obtain ⟨io, foundIo, validIo⟩ := upgraded_has (by decide) (defines.ioThreads (by decide))
  obtain ⟨work, foundWork, validWork⟩ := upgraded_has (by decide) (defines.workThreads (by decide))
  obtain ⟨connections, foundConnections, validConnections⟩ := upgraded_has (by decide) (defines.bootstrapConnections (by decide))
  have foundDbs : (upgraded7 tree).get "lmdb_max_dbs" = some "128".toList := by simp [upgraded7]
  obtain ⟨peeringPort, readPort, _⟩ := decimal_number 16 (by decide) (by decide) validPort
  obtain ⟨numerator, readFraction, _⟩ := decimal_number 32 (by decide) (by decide) validFraction
  obtain ⟨receiveMinimum, readMinimum⟩ := decimal_amount texts validMinimum
  obtain ⟨inactiveSupply, readSupply⟩ := decimal_amount texts validSupply
  obtain ⟨passwordFanout, readFanout, least, most⟩ := decimal_number 32 (by decide) (by decide) validFanout
  obtain ⟨ioThreads, readIo, someIo, _⟩ := decimal_number 32 (by decide) (by decide) validIo
  obtain ⟨workThreads, readWork, someWork, _⟩ := decimal_number 32 (by decide) (by decide) validWork
  obtain ⟨bootstrapConnections, readConnections, _⟩ := decimal_number 32 (by decide) (by decide) validConnections
  have positive : ∀ threads : BitVec 32, 1 ≤ threads.toNat → threads ≠ 0 := by
    rintro threads some rfl
    exact absurd some (by decide)
  have readDbs : stoi "128".toList = .ok 128 := by decide
  refine ⟨⟨port, fraction, minimum, supply, fanout, io, work, connections, "128".toList⟩,
    { before with
      peeringPort := peeringPort
      bootstrapFractionNumerator := numerator
      receiveMinimum := receiveMinimum
      inactiveSupply := inactiveSupply
      passwordFanout := passwordFanout
      ioThreads := ioThreads
      workThreads := workThreads
      bootstrapConnections := bootstrapConnections
      lmdbMaxDbs := 128 }, ?_, ?_⟩
  · exact ⟨foundPort, foundFraction, foundMinimum, foundSupply, foundFanout, foundIo, foundWork, foundConnections, foundDbs⟩
  · exact ⟨readPort, readFraction, readMinimum, readSupply, readFanout, ⟨least, Nat.le_of_lt_succ most⟩, readIo, readWork,
      ⟨positive _ someIo, positive _ someWork⟩, readConnections, readDbs⟩

theorem version7_lists {tree : PropertyTree} (defines : Defines texts 7 tree) (stated : (tree.get "version").isSome) :
    ∃ peers preconfigured accounts, ∀ config : NodeConfig Address, AcceptsLists texts (upgraded7 tree)
      { config with workPeers := peers, preconfiguredPeers := preconfigured, preconfiguredRepresentatives := accounts } := by
  obtain ⟨child, found⟩ := Option.isSome_iff_exists.mp (defines.workPeers stated)
  obtain ⟨peers, parsed⟩ := chosen_list child.members fun entry member => peer_text_parsed texts
    (defines.workPeerTexts child found entry member)
  obtain ⟨named, found'⟩ := Option.isSome_iff_exists.mp defines.preconfiguredPeers
  obtain ⟨representatives, found'', filled, known⟩ := defines.preconfiguredRepresentatives
  obtain ⟨accounts, decoded⟩ := chosen_list representatives.members known
  refine ⟨peers, _, accounts, fun config => ⟨⟨child, ?_, parsed⟩, ⟨named, ?_, rfl⟩, ⟨representatives, ?_, decoded⟩, ?_⟩⟩
  · rw [upgraded_child tree (by decide), found]
  · rw [upgraded_child tree (by decide), found']
  · rw [upgraded_child tree (by decide), found'']
  · rintro rfl
    exact filled (List.forall₂_nil_right_iff.mp decoded)

theorem version7_accepted {tree : PropertyTree} (defines : Defines texts 7 tree) (stated : (tree.get "version").isSome)
    (before : NodeConfig Address) : ∃ config, Accepts texts (upgraded7 tree) config := by
  obtain ⟨numbers, config, held, read⟩ := version7_numbers texts defines before
  obtain ⟨peers, preconfigured, accounts, lists⟩ := version7_lists texts defines stated
  obtain ⟨voting, foundVoting, readable⟩ := upgraded_has (by decide) (defines.enableVoting (by decide))
  obtain ⟨enableVoting, readVoting⟩ := Option.isSome_iff_exists.mp readable
  obtain ⟨address, foundAddress, _⟩ := upgraded_has (by decide) (defines.callbackAddress (by decide))
  obtain ⟨callback, foundCallback, validCallback⟩ := upgraded_has (by decide) (defines.callbackPort (by decide))
  obtain ⟨port, scanned⟩ := decimal_port validCallback
  obtain ⟨target, foundTarget, _⟩ := upgraded_has (by decide) (defines.callbackTarget (by decide))
  obtain ⟨readPort, readFraction, readMinimum, readSupply, readFanout, bounds, readIo, readWork, threads, readConnections,
    readDbs⟩ := read
  refine ⟨_, lists { config with
      enableVoting := enableVoting
      callbackAddress := address
      callbackPort := port
      callbackTarget := target }, ⟨numbers, held, ?_⟩, ?_, foundAddress, ⟨callback, foundCallback, scanned⟩, foundTarget⟩
  · exact ⟨readPort, readFraction, readMinimum, readSupply, readFanout, bounds, readIo, readWork, threads, readConnections, readDbs⟩
  · rw [foundVoting]
    exact readVoting

def LoadedCurrent (failed : Bool) (t : Loading (NodeConfig Address)) : Prop :=
  failed = false ∧ t.upgraded = true ∧ t.tree.get "version" = some "8".toList

theorem old_config_loads_iff (v : Nat) (old : 1 ≤ v ∧ v ≤ 7) (config : NodeConfig Address) (upgraded : Bool) (tree : PropertyTree)
    (defines : Defines texts v tree) : Meets (deserializeJson texts uninit) ⟨config, upgraded, tree⟩ LoadedCurrent ↔ v = 7 := by
  have refuses : ∀ t : Loading (NodeConfig Address), ¬ LoadedCurrent true t := fun t loaded => nomatch loaded.1
  have known : VersionIs (Loading.mk config upgraded tree).tree v := defines.version
  rw [loads_iff texts _ refuses, upgrade_iff known (by omega)]
  constructor
  · intro met
    obtain ⟨u, version, _, logging, _, _, _, loaded, _, _, _, _, current⟩ := upgraded_version texts uninit v old _ met
    rw [PropertyTree.get_set, if_neg (by decide), version, Option.some.injEq] at current
    obtain ⟨low, high⟩ := old
    interval_cases v
    all_goals first
      | rfl
      | exact absurd current (by decide)
  · rintro rfl
    have versioned : (tree.get "version").isSome := by
      rcases defines.version with ⟨text, found, _⟩ | ⟨_, first⟩
      · rw [found]
        rfl
      · cases first
    obtain ⟨accepted, accepts⟩ := version7_accepted texts defines versioned config
    obtain ⟨logging, number, found, either, definesLogging⟩ := defines.logging
    have start : stated (Loading.mk config upgraded tree) = ⟨config, upgraded, tree⟩ := if_pos versioned
    simp only [upgradeJson, fromVersion7, Loader.amend, meets_bind, meets_assign, meets_pure, start]
    obtain ⟨failed, loaded, returned, good, marked⟩ :=
      logging_loaded texts (s := ⟨config.logging, upgraded || true, logging⟩) either definesLogging
    refine ⟨accepted, logging, accepts, ?_, failed, loaded, returned, good, rfl, marked (Bool.or_true _), ?_⟩
    · exact (upgraded_child tree (by decide)).trans found
    · rw [PropertyTree.get_set, if_neg (by decide), PropertyTree.get_put, if_pos rfl]

theorem decimal_written (upper : Bool) {number least limit : Nat} (low : least ≤ number) (high : number < limit) :
    Decimal least limit (formatted upper .dec 0 number) :=
  ⟨number, ⟨formatted_ne_nil upper .dec 0 number, formatted_read upper .dec 0 number⟩, decimal_text_plain upper number, low, high⟩

theorem flag_written (value : Bool) : (texts.readFlag (flagText value)).isSome := by
  rw [texts.flag_read]
  rfl

theorem written_logging (logging : Logging) : DefinesLogging texts 2 (logging.serializeJson .empty) := by
  obtain ⟨version, flags, size⟩ := logging_written logging
  exact ⟨Or.inl ⟨_, version, by decide, by decide⟩, fun flag member _ => ⟨_, flags flag member, flag_written texts _⟩,
    ⟨_, size, decimal_written false (Nat.zero_le _) logging.maxSize.isLt⟩⟩

section Written

variable {config : NodeConfig Address}

theorem written_peer_texts (sound : Sound texts config) :
    ∀ entry ∈ (PropertyTree.listed (config.workPeers.map (workPeerText texts))).members,
    PeerText texts entry.2.data := by
  intro entry member
  obtain ⟨text, written, rfl⟩ := List.mem_map.mp member
  obtain ⟨peer, listed, rfl⟩ := List.mem_map.mp written
  obtain ⟨filled, read⟩ := sound.addresses peer listed
  exact ⟨_, _, rfl, filled, by rw [read]; rfl, decimal_written false (Nat.zero_le _) peer.2.isLt⟩

theorem written_representatives (sound : Sound texts config) :
    (PropertyTree.listed (config.preconfiguredRepresentatives.map (encodeAccount texts.toTexts))).members ≠ [] ∧
    ∀ entry ∈ (PropertyTree.listed (config.preconfiguredRepresentatives.map (encodeAccount texts.toTexts))).members,
      ∃ account, decodeAccount texts.toTexts entry.2.data = .ok (some account) := by
  constructor
  · simpa [PropertyTree.listed, PropertyTree.members] using sound.represented
  · intro entry member
    obtain ⟨text, listed, rfl⟩ := List.mem_map.mp member
    obtain ⟨account, _, rfl⟩ := List.mem_map.mp listed
    exact ⟨account, decode_encode_account texts.toTexts account⟩

def laterNames : List String := ["bootstrap_connections", "callback_address", "callback_port", "callback_target", "lmdb_max_dbs"]

theorem written_defines (sound : Sound texts config) {v : Nat} (recent : 6 ≤ v) {tree : PropertyTree} (version : VersionIs tree v)
    (same : ∀ name, name ≠ "version" → (name ∈ laterNames → 7 ≤ v) → tree.getChild name =
    (config.serializeJson texts .empty).getChild name) :
    Defines texts v tree := by
  have member : ∀ {name : String} {valid : Text → Prop}, name ≠ "version" → (name ∈ laterNames → 7 ≤ v) →
      Has (config.serializeJson texts .empty) name valid → Has tree name valid := by
    intro name valid other later has
    rw [Has, PropertyTree.get, same name other later]
    exact has
  obtain ⟨port, fraction, minimum, supply, fanout, io, work, connections, _⟩ := written_numbers texts config
  obtain ⟨peers, representatives, logging⟩ := written_lists texts config
  have absent : ∀ {name : String}, name ∉ laterNames → name ∈ laterNames → 7 ≤ v := fun out inside => absurd inside out
  have positive : ∀ threads : BitVec 32, threads ≠ 0 → 1 ≤ threads.toNat := fun threads some =>
    Nat.one_le_iff_ne_zero.mpr fun zero => some (BitVec.eq_of_toNat_eq zero)
  obtain ⟨filled, decoded⟩ := written_representatives texts sound
  refine ⟨version, ?_, ?_, ?_, fun early => by omega, ?_, ?_, ?_, ?_, ?_, fun _ => ?_, fun _ => ?_, fun _ => ?_, fun _ => ?_,
    fun _ => ?_, fun newer => ?_, fun newer => ?_, fun newer => ?_, fun newer => ?_⟩
  · exact member (by decide) (absent (by decide)) ⟨_, port, decimal_written false (Nat.zero_le _) (BitVec.isLt _)⟩
  · exact member (by decide) (absent (by decide)) ⟨_, fraction, decimal_written false (Nat.zero_le _) (BitVec.isLt _)⟩
  · exact member (by decide) (absent (by decide)) ⟨_, minimum, decimal_written texts.upper (Nat.zero_le _) (BitVec.isLt _)⟩
  · exact ⟨_, 2, (same "logging" (by decide) (absent (by decide))).trans logging, Or.inr rfl, written_logging texts config.logging⟩
  · intro _
    rw [same "work_peers" (by decide) (absent (by decide)), written_peers]
    rfl
  · intro child found
    rw [same "work_peers" (by decide) (absent (by decide)), written_peers, Option.some.injEq] at found
    exact found ▸ written_peer_texts texts sound
  · rw [same "preconfigured_peers" (by decide) (absent (by decide)), peers]
    rfl
  · exact ⟨_, (same "preconfigured_representatives" (by decide) (absent (by decide))).trans representatives, filled, decoded⟩
  · exact member (by decide) (absent (by decide)) ⟨_, supply, decimal_written texts.upper (Nat.zero_le _) (BitVec.isLt _)⟩
  · exact member (by decide) (absent (by decide)) ⟨_, fanout, decimal_written false sound.fanout.1 (Nat.lt_succ_of_le sound.fanout.2)⟩
  · exact member (by decide) (absent (by decide)) ⟨_, io, decimal_written false (positive _ sound.threaded.1) (BitVec.isLt _)⟩
  · exact member (by decide) (absent (by decide)) ⟨_, work, decimal_written false (positive _ sound.threaded.2) (BitVec.isLt _)⟩
  · exact member (by decide) (absent (by decide)) ⟨flagText config.enableVoting, by simp [serializeJson], flag_written texts _⟩
  · exact member (by decide) (fun _ => newer) ⟨_, connections, decimal_written false (Nat.zero_le _) (BitVec.isLt _)⟩
  · exact member (by decide) (fun _ => newer) ⟨config.callbackAddress, by simp [serializeJson], trivial⟩
  · exact member (by decide) (fun _ => newer) ⟨decimalText config.callbackPort.toNat, by simp [serializeJson],
      decimal_written false (Nat.zero_le _) (BitVec.isLt _)⟩
  · exact member (by decide) (fun _ => newer) ⟨config.callbackTarget, by simp [serializeJson], trivial⟩

end Written

def version7Tree : PropertyTree := savedTree.put "version" "7".toList

theorem old_config_loads_sample : Defines (plainConfigTexts zeroTexts) 7 version7Tree ∧
    Meets (deserializeJson (plainConfigTexts zeroTexts) fun _ => 0) ⟨sampleConfig, false, version7Tree⟩ LoadedCurrent := by
  have version : VersionIs version7Tree 7 :=
    Or.inl ⟨"7".toList, by rw [version7Tree, PropertyTree.get_put, if_pos rfl], by decide, by decide⟩
  have defines := written_defines _ sample_sound (by decide) version fun name other _ =>
    PropertyTree.child_put_other savedTree "version" name _ (Ne.symm other)
  exact ⟨defines, (old_config_loads_iff _ _ 7 (by decide) sampleConfig false version7Tree defines).mpr rfl⟩

def version6Tree : PropertyTree := laterNames.foldl PropertyTree.erase (savedTree.put "version" "6".toList)

theorem erased_child (names : List String) (tree : PropertyTree) (name : String) (kept : name ∉ names) :
    (names.foldl PropertyTree.erase tree).getChild name = tree.getChild name := by
  induction names generalizing tree with
  | nil => rfl
  | cons erased names ih =>
      obtain ⟨different, others⟩ := not_or.mp (List.mem_cons.not.mp kept)
      rw [List.foldl_cons, ih _ others, PropertyTree.child_erase, if_neg (Ne.symm different)]

-- The switch is left at version 7, and the reader misses what version 8 added.
theorem version6_refused : Defines (plainConfigTexts zeroTexts) 6 version6Tree ∧
    Meets (deserializeJson (plainConfigTexts zeroTexts) fun _ => 0) ⟨sampleConfig, false, version6Tree⟩ fun failed t =>
      failed = true ∧ t.tree.get "version" = some "7".toList := by
  have kept : ∀ name ∉ laterNames, version6Tree.getChild name = (savedTree.put "version" "6".toList).getChild name := fun name out =>
    erased_child laterNames _ name out
  have version : VersionIs version6Tree 6 := by
    refine Or.inl ⟨"6".toList, ?_, by decide, by decide⟩
    rw [PropertyTree.get, kept "version" (by decide), ← PropertyTree.get, PropertyTree.get_put, if_pos rfl]
  constructor
  · refine written_defines _ sample_sound (by decide) version fun name other later => ?_
    have out : name ∉ laterNames := fun inside => absurd (later inside) (by decide)
    rw [kept name out]
    exact PropertyTree.child_put_other savedTree "version" name _ (Ne.symm other)
  · have loaded : ((deserializeJson (plainConfigTexts zeroTexts) fun _ => 0).run ⟨sampleConfig, false, version6Tree⟩).map (fun out =>
        (out.1.toOption, out.2.tree.get "version")) = .ok (some true, some "7".toList) := by
      decide +kernel
    obtain ⟨⟨result, t⟩, returned, same⟩ := map_returned loaded
    obtain ⟨taken, version⟩ := Prod.mk.inj same
    cases result with
    | error thrown => cases taken
    | ok failed => exact ⟨failed, t, returned, Option.some.inj taken, version⟩

end NodeConfig

end Rai
