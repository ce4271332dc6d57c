import Raiblocks.ConfigLoad

set_option autoImplicit false

namespace Rai

open Kit Trial

namespace NodeConfig

variable {Address : Type} (texts : ConfigTexts Address)

def valueOf (tree : PropertyTree) (name : String) : Option Nat := (tree.get name).bind Radix.dec.read

def portsOf (tree : PropertyTree) : Option (List (Option Nat)) :=
  (tree.getChild "work_peers").map fun child => child.members.map fun entry => Radix.dec.read (portText entry.2.data)

def portNames : List String := ["peering_port", "callback_port"]

def amountNames : List String := ["receive_minimum", "inactive_supply"]

structure Numeric (tree : PropertyTree) : Prop where
  members : ∀ name ∈ portNames ++ amountNames, ∀ text, tree.get name = some text → ∃ value, Numeral text value
  ports : ∀ child, tree.getChild "work_peers" = some child → ∀ entry ∈ child.members, ∃ value, Numeral (portText entry.2.data) value

structure SameNumbers (tree written : PropertyTree) : Prop where
  members : ∀ name ∈ portNames ++ amountNames, valueOf written name = valueOf tree name
  ports : portsOf written = portsOf tree

structure InRange (tree : PropertyTree) : Prop where
  ports : ∀ name ∈ portNames, ∀ value, valueOf tree name = some value → value < 2 ^ 16
  amounts : ∀ name ∈ amountNames, ∀ value, valueOf tree name = some value → value < 2 ^ 128
  workPeers : ∀ values, portsOf tree = some values → ∀ value, some value ∈ values → value < 2 ^ 16

theorem narrowed_iff (bits value : Nat) : (BitVec.ofNat bits value).toNat = value ↔ value < 2 ^ bits := by
  rw [BitVec.toNat_ofNat]
  exact Nat.mod_eq_iff_lt (Nat.two_pow_pos bits).ne'

theorem number_kept_iff {bits : Nat} {field : BitVec bits} {text : Text} {value : Nat} (read : NumberRead field text)
    (numeral : Numeral text value) : field.toNat = value ↔ value < 2 ^ bits := by
  obtain ⟨number, scanned, rfl⟩ := read
  rw [stoul_numeral numeral] at scanned
  split at scanned
  · cases scanned
  · cases scanned
    exact narrowed_iff bits value

theorem port_kept_iff {port : BitVec 16} {text : Text} {value : Nat} (scanned : parsePort text = .ok (false, port))
    (numeral : Numeral text value) :
    port.toNat = value ↔ value < 2 ^ 16 := by
  obtain ⟨_, _, rfl⟩ := (parse_port_numeral numeral port).mp scanned
  exact narrowed_iff 16 value

theorem amount_kept_iff {amount : Amount} {text : Text} {value : Nat} (read : AmountRead texts amount text)
    (numeral : Numeral text value) :
    amount.toNat = value ↔ value < 2 ^ 128 := by
  constructor
  · rintro rfl
    exact amount.isLt
  · intro small
    have decoded := decode_dec_digits text value numeral.2 numeral.1 texts.toTexts 128 39 0 fun plain => by
      rw [Nat.mod_eq_of_lt small]
      exact texts.extract_wide_digits .dec 128 text value numeral.2 numeral.1 small plain
    rw [AmountRead, decode_dec_128] at read
    rcases decoded with ⟨_, refused⟩ | ⟨_, taken⟩
    · rw [read] at refused
      cases refused
    · rw [read] at taken
      obtain rfl : amount = BitVec.ofNat 128 value := congrArg Prod.snd taken
      exact (narrowed_iff 128 value).mpr small

theorem work_peer_port (peer : Address × BitVec 16) : Numeral (portText (workPeerText texts peer)) peer.2.toNat := by
  have numeral := decimal_numeral peer.2.toNat
  rw [workPeerText, port_text_last _ _ (numeral_no_colon numeral)]
  exact numeral

theorem ports_kept_iff {entries : List (String × PropertyTree)} {peers : List (Address × BitVec 16)}
    (parsed : List.Forall₂ (fun entry peer => parseAddressPort texts entry.2.data = some peer) entries peers)
    (numeric : ∀ entry ∈ entries, ∃ value, Numeral (portText entry.2.data) value) :
    peers.map (fun peer => some peer.2.toNat) = entries.map (fun entry => Radix.dec.read (portText entry.2.data)) ↔
      ∀ value, some value ∈ entries.map (fun entry => Radix.dec.read (portText entry.2.data)) → value < 2 ^ 16 := by
  induction parsed with
  | nil => simp
  | @cons entry peer entries peers here _ ih =>
      obtain ⟨⟨value, numeral⟩, others⟩ := List.forall_mem_cons.mp numeric
      have port := parse_address_port_numeral texts here numeral
      have kept := narrowed_iff 16 value
      rw [port] at kept
      simp only [List.map_cons, List.cons.injEq, numeral.2, Option.some.injEq, ih others, kept, List.mem_cons]
      constructor
      · rintro ⟨small, rest⟩ other (rfl | member)
        · exact small
        · exact rest other member
      · exact fun all => ⟨all value (Or.inl rfl), fun other member => all other (Or.inr member)⟩

theorem member_kept_iff {tree written : PropertyTree} {name : String} {text : Text} {value kept bound : Nat}
    (found : tree.get name = some text) (numeral : Numeral text value) (writes : valueOf written name = some kept)
    (same : kept = value ↔ value < bound) :
    valueOf written name = valueOf tree name ↔ ∀ number, valueOf tree name = some number → number < bound := by
  have here : valueOf tree name = some value := by rw [valueOf, found]; exact numeral.2
  rw [writes, here, Option.some.injEq, same]
  constructor
  · rintro small number ⟨⟩
    exact small
  · exact fun all => all value rfl

section Written

variable (config : NodeConfig Address)

theorem written_texts : (config.serializeJson texts .empty).get "peering_port" = some (decimalText config.peeringPort.toNat) ∧
    (config.serializeJson texts .empty).get "callback_port" = some (decimalText config.callbackPort.toNat) ∧
    (config.serializeJson texts .empty).get "receive_minimum" = some (UInt128Union.encodeDec texts.toTexts config.receiveMinimum) ∧
    (config.serializeJson texts .empty).get "inactive_supply" = some (UInt128Union.encodeDec texts.toTexts config.inactiveSupply) := by
  simp [serializeJson]

theorem written_members : valueOf (config.serializeJson texts .empty) "peering_port" = some config.peeringPort.toNat ∧
    valueOf (config.serializeJson texts .empty) "callback_port" = some config.callbackPort.toNat ∧
    valueOf (config.serializeJson texts .empty) "receive_minimum" = some config.receiveMinimum.toNat ∧
    valueOf (config.serializeJson texts .empty) "inactive_supply" = some config.inactiveSupply.toNat := by
  obtain ⟨port, callback, minimum, supply⟩ := written_texts texts config
  simp [valueOf, port, callback, minimum, supply, decimalText, UInt128Union.encodeDec, formatted_read]

theorem written_peers : (config.serializeJson texts .empty).getChild "work_peers" =
    some (.listed (config.workPeers.map (workPeerText texts))) := by
  have none : PropertyTree.empty.getChild "work_peers" = none := rfl
  simp [serializeJson, none]

theorem written_ports : portsOf (config.serializeJson texts .empty) = some (config.workPeers.map fun peer => some peer.2.toNat) := by
  have ports := fun peer => (work_peer_port texts peer).2
  rw [portsOf, written_peers]
  simp [PropertyTree.listed, PropertyTree.members, PropertyTree.data, Function.comp_def, ports]

theorem written_version : (config.serializeJson texts .empty).get "version" = some "8".toList := by
  simp [serializeJson]

theorem written_numeric : Numeric (config.serializeJson texts .empty) := by
  obtain ⟨port, callback, minimum, supply⟩ := written_texts texts config
  have amount : ∀ amount : Amount, Numeral (UInt128Union.encodeDec texts.toTexts amount) amount.toNat := fun amount =>
    ⟨formatted_ne_nil texts.upper .dec 0 amount.toNat, formatted_read texts.upper .dec 0 amount.toNat⟩
  refine ⟨?_, ?_⟩
  · intro name member text found
    simp only [portNames, amountNames, List.cons_append, List.nil_append, List.mem_cons, List.not_mem_nil, or_false] at member
    rcases member with rfl | rfl | rfl | rfl
    · rw [port] at found
      exact ⟨_, Option.some.inj found ▸ decimal_numeral _⟩
    · rw [callback] at found
      exact ⟨_, Option.some.inj found ▸ decimal_numeral _⟩
    · rw [minimum] at found
      exact ⟨_, Option.some.inj found ▸ amount _⟩
    · rw [supply] at found
      exact ⟨_, Option.some.inj found ▸ amount _⟩
  · intro child found entry member
    rw [written_peers, Option.some.injEq] at found
    subst found
    obtain ⟨text, listed, rfl⟩ := List.mem_map.mp member
    obtain ⟨peer, _, rfl⟩ := List.mem_map.mp listed
    exact ⟨_, work_peer_port texts peer⟩

theorem written_in_range : InRange (config.serializeJson texts .empty) := by
  obtain ⟨port, callback, minimum, supply⟩ := written_members texts config
  refine ⟨?_, ?_, ?_⟩
  · intro name member value found
    simp only [portNames, List.mem_cons, List.not_mem_nil, or_false] at member
    rcases member with rfl | rfl
    · rw [port] at found
      exact Option.some.inj found ▸ config.peeringPort.isLt
    · rw [callback] at found
      exact Option.some.inj found ▸ config.callbackPort.isLt
  · intro name member value found
    simp only [amountNames, List.mem_cons, List.not_mem_nil, or_false] at member
    rcases member with rfl | rfl
    · rw [minimum] at found
      exact Option.some.inj found ▸ config.receiveMinimum.isLt
    · rw [supply] at found
      exact Option.some.inj found ▸ config.inactiveSupply.isLt
  · intro values found value member
    rw [written_ports, Option.some.injEq] at found
    subst found
    obtain ⟨peer, _, same⟩ := List.mem_map.mp member
    exact Option.some.inj same ▸ peer.2.isLt

end Written

section LoggingSaved

variable (logging : Logging)

def flagsPut (tree : PropertyTree) (flags : List LoggingFlag) : PropertyTree :=
  flags.foldl (fun tree flag => tree.put flag.name (flagText (flag.value logging))) tree

theorem flags_other (flags : List LoggingFlag) (tree : PropertyTree) (name : String) (other : ∀ flag ∈ flags, flag.name ≠ name) :
    (flagsPut logging tree flags).get name = tree.get name := by
  induction flags generalizing tree with
  | nil => rfl
  | cons flag flags ih =>
      obtain ⟨different, others⟩ := List.forall_mem_cons.mp other
      rw [flagsPut, List.foldl_cons]
      exact (ih _ others).trans (by rw [PropertyTree.get_put, if_neg different])

theorem flags_written (flags : List LoggingFlag) (tree : PropertyTree) (distinct : (flags.map LoggingFlag.name).Nodup) :
    ∀ flag ∈ flags, (flagsPut logging tree flags).get flag.name = some (flagText (flag.value logging)) := by
  induction flags generalizing tree with
  | nil => simp
  | cons flag flags ih =>
      obtain ⟨fresh, distinct⟩ := List.nodup_cons.mp distinct
      refine List.forall_mem_cons.mpr ⟨?_, fun other member => ?_⟩
      · rw [flagsPut, List.foldl_cons]
        refine (flags_other logging flags _ flag.name fun other member same => fresh ?_).trans
          (by rw [PropertyTree.get_put, if_pos rfl])
        exact List.mem_map.mpr ⟨other, member, same⟩
      · rw [flagsPut, List.foldl_cons]
        exact ih _ distinct other member

theorem logging_written : (logging.serializeJson .empty).get "version" = some "2".toList ∧
    (∀ flag ∈ loggingFlags, (logging.serializeJson .empty).get flag.name = some (flagText (flag.value logging))) ∧
    (logging.serializeJson .empty).get "max_size" = some (decimalText logging.maxSize.toNat) := by
  have saved : logging.serializeJson .empty =
      (flagsPut logging (.put .empty "version" "2".toList) loggingFlags).put "max_size" (decimalText logging.maxSize.toNat) := rfl
  have named : ∀ flag ∈ loggingFlags, flag.name ≠ "version" ∧ "max_size" ≠ flag.name := by decide
  rw [saved]
  refine ⟨?_, fun flag member => ?_, ?_⟩
  · rw [PropertyTree.get_put, if_neg (by decide), flags_other logging loggingFlags _ _ fun flag member => (named flag member).1]
    simp
  · rw [PropertyTree.get_put, if_neg (named flag member).2]
    exact flags_written logging loggingFlags _ (by decide) flag member
  · rw [PropertyTree.get_put, if_pos rfl]

theorem flags_read (flags : List LoggingFlag) (s : Loading Logging) (post : Unit → Loading Logging → Prop)
    (written : ∀ flag ∈ flags, s.tree.get flag.name = some (flagText (flag.value logging))) :
    Meets (flags.forM (Logging.loadFlag texts)) s post ↔
      post () { s with object := flags.foldl (fun loaded flag => flag.set loaded (flag.value logging)) s.object } := by
  induction flags generalizing s with
  | nil => exact meets_pure () post
  | cons flag flags ih =>
      obtain ⟨here, others⟩ := List.forall_mem_cons.mp written
      have read : (s.tree.get flag.name).bind texts.readFlag = some (flag.value logging) := by rw [here]; exact texts.flag_read _
      show Meets (Logging.loadFlag texts flag >>= fun _ => flags.forM (Logging.loadFlag texts)) s post ↔ _
      simp only [Logging.loadFlag, Loader.store, meets_bind, meets_observe, meets_assign, read, Option.some.injEq, exists_eq_left']
      exact ih _ others

theorem logging_round_trip (before : Logging) (upgraded : Bool) :
    Meets (Logging.deserializeJson texts) ⟨before, upgraded, logging.serializeJson .empty⟩ fun failed loaded =>
      failed = false ∧ loaded = ⟨logging, upgraded, logging.serializeJson .empty⟩ := by
  obtain ⟨version, flags, size⟩ := logging_written logging
  generalize logging.serializeJson .empty = tree at version flags size
  have known : VersionIs tree 2 := Or.inl ⟨_, version, by decide, by decide⟩
  have start : stated (Loading.mk before upgraded tree) = ⟨before, upgraded, tree⟩ := if_pos (by rw [version]; rfl)
  have numeral := decimal_numeral logging.maxSize.toNat
  have read : (tree.get "max_size").bind texts.readSize = some logging.maxSize := by
    rw [size]
    exact (texts.size_read _ _ numeral.2 numeral.1 logging.maxSize.isLt).trans (by rw [BitVec.ofNat_toNat, BitVec.setWidth_eq])
  rw [Logging.deserializeJson, meets_catching _ _ _ _ (by simp), meets_bind, upgrade_iff known (by decide), start]
  simp only [Logging.upgradeJson, meets_pure, meets_bind, Bool.or_false]
  rw [flags_read texts logging loggingFlags _ _ flags]
  simp only [meets_observe, Loader.store, meets_assign, read, Option.some.injEq, exists_eq_left']
  exact ⟨trivial, rfl⟩

end LoggingSaved

structure Sound (config : NodeConfig Address) : Prop where
  fanout : 16 ≤ config.passwordFanout.toNat ∧ config.passwordFanout.toNat ≤ 1024 * 1024
  threaded : config.ioThreads ≠ 0 ∧ config.workThreads ≠ 0
  represented : config.preconfiguredRepresentatives ≠ []
  addresses : ∀ peer ∈ config.workPeers, texts.addressText peer.1 ≠ [] ∧ texts.readAddress (texts.addressText peer.1) = some peer.1
  databases : -2 ^ 31 ≤ config.lmdbMaxDbs ∧ config.lmdbMaxDbs < 2 ^ 31

theorem initial_sound (network : Network) (hardwareConcurrency : BitVec 32) (peeringPort : BitVec 16) (logging : Logging) :
    Sound texts (initial network hardwareConcurrency peeringPort logging) := by
  have threads : (if 4 < hardwareConcurrency then hardwareConcurrency else 4) ≠ 0 := by
    split
    · next more =>
        rintro rfl
        exact absurd more (by decide)
    · decide
  have fanout : 16 ≤ (1024 : BitVec 32).toNat ∧ (1024 : BitVec 32).toNat ≤ 1024 * 1024 := by decide
  have databases : -2 ^ 31 ≤ (128 : Int) ∧ (128 : Int) < 2 ^ 31 := by decide
  refine ⟨fanout, ⟨threads, threads⟩, ?_, fun peer member => absurd member List.not_mem_nil, databases⟩
  cases network <;> exact List.cons_ne_nil _ _

theorem number_written {bits : Nat} (short : bits ≤ 64) (field : BitVec bits) : NumberRead field (decimalText field.toNat) := by
  have numeral := decimal_numeral field.toNat
  have small : ¬ 2 ^ 64 ≤ field.toNat := Nat.not_le.mpr (field.isLt.trans_le (Nat.pow_le_pow_right (by decide) short))
  refine ⟨_, (stoul_numeral numeral).trans (if_neg small), ?_⟩
  rw [BitVec.ofNat_toNat, BitVec.setWidth_eq]

theorem port_written (port : BitVec 16) : parsePort (decimalText port.toNat) = .ok (false, port) := by
  have numeral := decimal_numeral port.toNat
  have short := short_port numeral (decimal_text_plain false port.toNat) port.isLt
  exact (parse_port_numeral numeral port).mpr ⟨port.isLt.trans (by decide), short, by rw [BitVec.ofNat_toNat, BitVec.setWidth_eq]⟩

theorem work_peer_written (peer : Address × BitVec 16) (filled : texts.addressText peer.1 ≠ [])
    (read : texts.readAddress (texts.addressText peer.1) = some peer.1) :
    parseAddressPort texts (workPeerText texts peer) = some peer := by
  have position : (texts.addressText peer.1).length > 0 := List.length_pos_iff.mpr filled
  rw [parseAddressPort, workPeerText, rfind_last _ ':' _ (numeral_no_colon (decimal_numeral peer.2.toNat))]
  simp [position, port_written, read]

section RoundTrip

variable (config : NodeConfig Address)

theorem listed_related {α : Type} (r : Text → α → Prop) (write : α → Text) (items : List α)
    (related : ∀ item ∈ items, r (write item) item) :
    List.Forall₂ (fun (entry : String × PropertyTree) item => r entry.2.data item)
    (PropertyTree.listed (items.map write)).members items := by
  induction items with
  | nil => exact .nil
  | cons item items ih =>
      obtain ⟨here, others⟩ := List.forall_mem_cons.mp related
      exact .cons here (ih others)

theorem written_lists : (config.serializeJson texts .empty).getChild "preconfigured_peers" = some (.listed config.preconfiguredPeers) ∧
    (config.serializeJson texts .empty).getChild "preconfigured_representatives" =
      some (.listed (config.preconfiguredRepresentatives.map (encodeAccount texts.toTexts))) ∧
    (config.serializeJson texts .empty).getChild "logging" = some (config.logging.serializeJson .empty) := by
  have none : ∀ name, PropertyTree.empty.getChild name = none := fun _ => rfl
  simp [serializeJson, none]

theorem written_numbers : Holds (config.serializeJson texts .empty) ⟨decimalText config.peeringPort.toNat,
    decimalText config.bootstrapFractionNumerator.toNat, UInt128Union.encodeDec texts.toTexts config.receiveMinimum,
    UInt128Union.encodeDec texts.toTexts config.inactiveSupply, decimalText config.passwordFanout.toNat,
    decimalText config.ioThreads.toNat,
    decimalText config.workThreads.toNat, decimalText config.bootstrapConnections.toNat, integerText config.lmdbMaxDbs⟩ := by
  constructor <;> simp [serializeJson]

variable {config}

theorem written_accepted (sound : Sound texts config) : Accepts texts (config.serializeJson texts .empty) config := by
  obtain ⟨peers, representatives, _⟩ := written_lists texts config
  refine ⟨⟨⟨_, written_peers texts config, ?_⟩, ⟨_, peers, ?_⟩, ⟨_, representatives, ?_⟩, sound.represented⟩,
    ⟨_, written_numbers texts config, ?_⟩, ?_, ?_, ⟨decimalText config.callbackPort.toNat, ?_, port_written _⟩, ?_⟩
  · refine listed_related (fun text peer => parseAddressPort texts text = some peer) _ _ fun peer member => ?_
    obtain ⟨filled, read⟩ := sound.addresses peer member
    exact work_peer_written texts peer filled read
  · simp [PropertyTree.listed, PropertyTree.members, PropertyTree.data, Function.comp_def]
  · exact listed_related (fun text account => decodeAccount texts.toTexts text = .ok (some account)) _ _ fun account _ =>
      decode_encode_account texts.toTexts account
  · exact ⟨number_written (by decide) _, number_written (by decide) _, decode_encode_dec texts.toTexts 0 _,
      decode_encode_dec texts.toTexts 0 _, number_written (by decide) _, sound.fanout, number_written (by decide) _,
      number_written (by decide) _, sound.threaded, number_written (by decide) _, stoi_integer _ sound.databases.1 sound.databases.2⟩
  · have voting : (config.serializeJson texts .empty).get "enable_voting" = some (flagText config.enableVoting) := by
      simp [serializeJson]
    rw [voting]
    exact texts.flag_read _
  · simp [serializeJson]
  · simp [serializeJson]
  · simp [serializeJson]

theorem config_round_trip (uninit : Nat → Account) (sound : Sound texts config) (before : NodeConfig Address) (upgraded : Bool) :
    Meets (deserializeJson texts uninit) ⟨before, upgraded, config.serializeJson texts .empty⟩ fun failed t =>
      failed = false ∧ t.object = config ∧ t.upgraded = upgraded := by
  obtain ⟨_, _, logging⟩ := written_lists texts config
  have version := written_version texts config
  have accepted := written_accepted texts sound
  generalize config.serializeJson texts .empty = tree at logging version accepted
  have known : VersionIs (Loading.mk before upgraded tree).tree 8 := Or.inl ⟨_, version, by decide, by decide⟩
  have start : stated (Loading.mk before upgraded tree) = ⟨before, upgraded, tree⟩ := if_pos (by rw [version]; rfl)
  rw [loads_iff texts _ (by simp), upgrade_iff known (by decide), start]
  simp only [upgradeJson, meets_pure, Bool.or_false]
  obtain ⟨failed, loaded, returned, good, rfl⟩ := logging_round_trip texts config.logging before.logging upgraded
  exact ⟨config, _, accepted, logging, failed, _, returned, good, trivial, rfl, rfl⟩

end RoundTrip

theorem accepted_current (uninit : Nat → Account) {s t : Loading (NodeConfig Address)} (current : VersionIs s.tree 8)
    (accepted : (deserializeJson texts uninit).run s = .ok (.ok false, t)) :
    ∃ config, Accepts texts s.tree config ∧ t.object = { config with logging := t.object.logging } := by
  have met := (meets_returned accepted fun failed u => failed = false ∧ u = t).mpr ⟨rfl, rfl⟩
  have stays : stated s = s := by
    rcases current with ⟨text, found, _⟩ | ⟨_, first⟩
    · simp [stated, found]
    · cases first
  rw [loads_iff texts _ (fun u => by simp), upgrade_iff current (by decide), stays] at met
  simp only [upgradeJson, meets_pure] at met
  obtain ⟨config, logging, accepts, _, failed, loaded, _, _, _, rfl⟩ := met
  exact ⟨config, accepts, rfl⟩

theorem saved_iff {tree : PropertyTree} {config : NodeConfig Address} (accepts : Accepts texts tree config) (numeric : Numeric tree)
    (logging : Logging) : SameNumbers tree ({ config with logging := logging }.serializeJson texts .empty) ↔ InRange tree := by
  obtain ⟨⟨⟨peers, foundPeers, parsed⟩, _⟩, ⟨numbers, held, read⟩, _, _, ⟨callback, foundCallback, scanned⟩, _⟩ := accepts
  obtain ⟨wrotePort, wroteCallback, wroteMinimum, wroteSupply⟩ := written_members texts { config with logging := logging }
  obtain ⟨port, portNumeral⟩ := numeric.members "peering_port" (by decide) _ held.peeringPort
  obtain ⟨callbackPort, callbackNumeral⟩ := numeric.members "callback_port" (by decide) _ foundCallback
  obtain ⟨minimum, minimumNumeral⟩ := numeric.members "receive_minimum" (by decide) _ held.receiveMinimum
  obtain ⟨supply, supplyNumeral⟩ := numeric.members "inactive_supply" (by decide) _ held.inactiveSupply
  have portKept := member_kept_iff held.peeringPort portNumeral wrotePort (number_kept_iff read.peeringPort portNumeral)
  have callbackKept := member_kept_iff foundCallback callbackNumeral wroteCallback (port_kept_iff scanned callbackNumeral)
  have minimumKept := member_kept_iff held.receiveMinimum minimumNumeral wroteMinimum
    (amount_kept_iff texts read.receiveMinimum minimumNumeral)
  have supplyKept := member_kept_iff held.inactiveSupply supplyNumeral wroteSupply
    (amount_kept_iff texts read.inactiveSupply supplyNumeral)
  have portsKept := ports_kept_iff texts parsed (numeric.ports peers foundPeers)
  have ports : portsOf tree = some (peers.members.map fun entry => Radix.dec.read (portText entry.2.data)) := by
    rw [portsOf, foundPeers]; rfl
  have wrotePorts := written_ports texts { config with logging := logging }
  constructor
  · rintro ⟨members, same⟩
    refine ⟨?_, ?_, ?_⟩
    · exact List.forall_mem_cons.mpr ⟨portKept.mp (members _ (by decide)), List.forall_mem_singleton.mpr
        (callbackKept.mp (members _ (by decide)))⟩
    · exact List.forall_mem_cons.mpr ⟨minimumKept.mp (members _ (by decide)), List.forall_mem_singleton.mpr
        (supplyKept.mp (members _ (by decide)))⟩
    · intro values found
      rw [wrotePorts, ports, Option.some.injEq] at same
      rw [ports] at found
      cases found
      exact portsKept.mp same
  · rintro ⟨inPorts, inAmounts, inPeers⟩
    refine ⟨List.forall_mem_append.mpr ⟨?_, ?_⟩, ?_⟩
    · exact List.forall_mem_cons.mpr ⟨portKept.mpr (inPorts _ (by decide)), List.forall_mem_singleton.mpr
        (callbackKept.mpr (inPorts _ (by decide)))⟩
    · exact List.forall_mem_cons.mpr ⟨minimumKept.mpr (inAmounts _ (by decide)), List.forall_mem_singleton.mpr
        (supplyKept.mpr (inAmounts _ (by decide)))⟩
    · rw [wrotePorts, ports, Option.some.injEq]
      exact portsKept.mpr (inPeers _ ports)

theorem accepted_saved_iff (uninit : Nat → Account) (s t : Loading (NodeConfig Address)) (current : VersionIs s.tree 8)
    (numeric : Numeric s.tree) (accepted : (deserializeJson texts uninit).run s = .ok (.ok false, t)) :
    SameNumbers s.tree (t.object.serializeJson texts .empty) ↔ InRange s.tree := by
  obtain ⟨config, accepts, same⟩ := accepted_current texts uninit current accepted
  rw [same]
  exact saved_iff texts accepts numeric t.object.logging

def sampleConfig : NodeConfig Text :=
  { (initial .test 1 7075 Logging.initial : NodeConfig Text) with workPeers := [("::1".toList, 7076)] }

theorem sample_sound : Sound (plainConfigTexts zeroTexts) sampleConfig := by
  obtain ⟨fanout, threaded, represented, _, databases⟩ := initial_sound (plainConfigTexts zeroTexts) .test 1 7075 Logging.initial
  refine ⟨fanout, threaded, represented, List.forall_mem_singleton.mpr ⟨?_, rfl⟩, databases⟩
  exact List.cons_ne_nil ':' _

def savedTree : PropertyTree := sampleConfig.serializeJson (plainConfigTexts zeroTexts) .empty

theorem accepted_saved_sample : ∃ t, (deserializeJson (plainConfigTexts zeroTexts) fun _ => 0).run ⟨sampleConfig, false, savedTree⟩ =
    .ok (.ok false, t) ∧ SameNumbers savedTree (t.object.serializeJson (plainConfigTexts zeroTexts) .empty) := by
  obtain ⟨failed, t, accepted, rfl, _⟩ := config_round_trip _ (fun _ => 0) sample_sound sampleConfig false
  have current : VersionIs savedTree 8 := Or.inl ⟨_, written_version _ _, by decide, by decide⟩
  exact ⟨t, accepted, (accepted_saved_iff _ _ ⟨sampleConfig, false, savedTree⟩ t current (written_numeric _ _) accepted).mpr
    (written_in_range _ _)⟩

def largePort : PropertyTree := savedTree.put "peering_port" "65536".toList

-- The port is narrowed before it is compared, and becomes 0.
theorem large_port_accepted : VersionIs largePort 8 ∧ Numeric largePort ∧ valueOf largePort "peering_port" = some 65536 ∧
    ∃ t, (deserializeJson (plainConfigTexts zeroTexts) fun _ => 0).run ⟨sampleConfig, false, largePort⟩ = .ok (.ok false, t) ∧
      valueOf (t.object.serializeJson (plainConfigTexts zeroTexts) .empty) "peering_port" = some 0 ∧
      ¬ SameNumbers largePort (t.object.serializeJson (plainConfigTexts zeroTexts) .empty) := by
  have numeric : Numeric savedTree := written_numeric _ _
  have read : Numeral "65536".toList 65536 := ⟨by decide, by decide⟩
  have port : valueOf largePort "peering_port" = some 65536 := by
    rw [valueOf, largePort, PropertyTree.get_put, if_pos rfl]
    exact read.2
  refine ⟨Or.inl ⟨"8".toList, ?_, by decide, by decide⟩, ⟨?_, ?_⟩, port, ?_⟩
  · rw [largePort, PropertyTree.get_put, if_neg (by decide)]
    exact written_version _ _
  · intro name member text found
    rw [largePort, PropertyTree.get_put] at found
    split at found
    · exact ⟨65536, Option.some.inj found ▸ read⟩
    · exact numeric.members name member text found
  · intro child found
    rw [largePort, PropertyTree.child_put_other _ _ _ _ (by decide)] at found
    exact numeric.ports child found
  · have loaded : ((deserializeJson (plainConfigTexts zeroTexts) fun _ => 0).run ⟨sampleConfig, false, largePort⟩).map (fun out =>
        (out.1.toOption, valueOf (out.2.object.serializeJson (plainConfigTexts zeroTexts) .empty) "peering_port")) = .ok
          (some false, some 0) := by
      decide +kernel
    obtain ⟨⟨result, t⟩, returned, same⟩ := map_returned loaded
    obtain ⟨taken, written⟩ := Prod.mk.inj same
    obtain rfl : result = .ok false := by
      cases result with
      | error thrown => cases taken
      | ok failed => exact congrArg Except.ok (Option.some.inj taken)
    refine ⟨t, returned, written, fun same => ?_⟩
    have kept := same.members "peering_port" (by decide)
    rw [written, port] at kept
    cases kept

end NodeConfig

end Rai
