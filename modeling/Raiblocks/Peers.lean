import Raiblocks.Kit.Fill
import Raiblocks.Kit.Fuel
import Raiblocks.Messages

set_option autoImplicit false

namespace Rai

open Kit

structure PeerInformation where
  endpoint : Endpoint
  lastContact : Nat
deriving DecidableEq, Repr

-- Two of the indices of the container: `get<1>`, ordered by the last contact, and `get<3>`, the positions. Peers that were
-- contacted at the same time may stand in any order. The endpoint is a unique key.
structure PeerContainer where
  byContact : List PeerInformation
  byPosition : List PeerInformation
  same : byPosition.Perm byContact
  unique : (byContact.map PeerInformation.endpoint).Nodup
  ordered : byContact.Pairwise fun older newer => older.lastContact ≤ newer.lastContact

namespace PeerContainer

def size (peers : PeerContainer) : Nat := peers.byPosition.length

-- What `GenerateWord32 (0, peers.size () - 1)` may return; its arguments have 32 bits.
abbrev Word (peers : PeerContainer) : Type := Fin ((peers.size - 1) % 2 ^ 32 + 1)

variable (peers : PeerContainer) (count : BitVec 64) (words : Nat → peers.Word)

def endpoints : List Endpoint := peers.byContact.map PeerInformation.endpoint

-- The first loop of `random_set`. Its counter is an `int`; to count past the largest one is undefined.
def drawPeers : Nat → Nat → Finset Endpoint → Except Fault (Finset Endpoint)
  | 0, _, result => .ok result
  | left + 1, i, result =>
      if result.card < count.toNat then do
        let peer ← require peers.byPosition[(words i).val]?
        ensure (i + 1 < 2 ^ 31)
        drawPeers left (i + 1) (insert peer.endpoint result)
      else .ok result

def randomCutoff : Nat := (count * 2).toNat

def randomSample : Except Fault (Finset Endpoint) :=
  if peers.byPosition ≠ [] then drawPeers peers count words (randomCutoff count) 0 ∅ else .ok ∅

def randomSet : Except Fault (Finset Endpoint) := do
  let result ← peers.randomSample count words
  .ok (fillTo count.toNat peers.endpoints result)

def drawn (i : Nat) : Option Endpoint := (peers.byPosition[(words i).val]?).map PeerInformation.endpoint

def draws (i attempts : Nat) : List Endpoint := (List.range' i attempts).filterMap (peers.drawn words)

def sampled : Finset Endpoint := fillTo count.toNat (peers.draws words 0 (randomCutoff count)) ∅

def Counted : Prop :=
  peers.byPosition = [] ∨ randomCutoff count < 2 ^ 31 ∨ count.toNat ≤ (fillTo count.toNat (peers.draws words 0 (2 ^ 31 - 1)) ∅).card

structure Chosen (sampled chosen : Finset Endpoint) : Prop where
  enough : chosen.card = min count.toNat peers.size
  known : ∀ endpoint ∈ chosen, endpoint ∈ peers.endpoints
  fresh : ∀ added ∈ peers.byContact, added.endpoint ∈ chosen → added.endpoint ∉ sampled →
    ∀ other ∈ peers.byContact, other.endpoint ∉ chosen → other.lastContact ≤ added.lastContact

theorem endpoints_length : peers.endpoints.length = peers.size := by
  rw [endpoints, List.length_map, size, peers.same.length_eq]

theorem position_valid (filled : peers.byPosition ≠ []) (word : peers.Word) : ∃ peer, peers.byPosition[word.val]? = some peer := by
  have positive : 0 < peers.size := List.length_pos_iff.mpr filled
  have cut : (peers.size - 1) % 2 ^ 32 ≤ peers.size - 1 := Nat.mod_le _ _
  have bound : word.val < peers.size := by omega
  exact ⟨_, List.getElem?_eq_getElem bound⟩

theorem draws_succ (i attempts : Nat) (peer : PeerInformation)
    (found : peers.byPosition[(words i).val]? = some peer) :
    peers.draws words i (attempts + 1) = peer.endpoint :: peers.draws words (i + 1) attempts := by
  have here : peers.drawn words i = some peer.endpoint := by rw [drawn, found, Option.map_some]
  rw [draws, List.range'_succ, List.filterMap_cons_some here]
  rfl

theorem drawn_known (i : Nat) (endpoint : Endpoint) (found : peers.drawn words i = some endpoint) : endpoint ∈ peers.endpoints := by
  obtain ⟨peer, there, rfl⟩ := Option.map_eq_some_iff.mp found
  exact List.mem_map_of_mem (peers.same.mem_iff.mp (List.mem_of_getElem? there))

theorem draw_peers_iff (filled : peers.byPosition ≠ []) (left i : Nat) (result out : Finset Endpoint) (counting : i < 2 ^ 31) :
    peers.drawPeers count words left i result = .ok out ↔ out = fillTo count.toNat (peers.draws words i left) result ∧
      (i + left < 2 ^ 31 ∨ count.toNat ≤ (fillTo count.toNat (peers.draws words i (2 ^ 31 - 1 - i)) result).card) := by
  induction left generalizing i result with
  | zero =>
      rw [drawPeers, Except.ok.injEq, eq_comm, Nat.add_zero, and_iff_left (Or.inl counting)]
      rfl
  | succ left ih =>
      obtain ⟨peer, found⟩ := peers.position_valid filled (words i)
      rw [drawPeers]
      split
      case isTrue more =>
        rw [found, require_some, bind_ok, draws_succ peers words i left peer found, fillTo, if_pos more]
        by_cases last : i + 1 < 2 ^ 31
        · have attempts : 2 ^ 31 - 1 - i = 2 ^ 31 - 1 - (i + 1) + 1 := by omega
          rw [ensure_true _ last, bind_ok, ih (i + 1) _ last, attempts, draws_succ peers words i _ peer found, fillTo, if_pos more,
            Nat.add_right_comm, Nat.add_assoc i left 1]
        · have none_left : 2 ^ 31 - 1 - i = 0 := by omega
          rw [ensure, if_neg last, none_left]
          refine iff_of_false (fun returned => by cases returned) ?_
          rintro ⟨_, fits | full⟩
          · omega
          · exact absurd more (Nat.not_lt.mpr full)
      case isFalse full =>
        have full := Nat.not_lt.mp full
        rw [fill_full _ _ _ full, fill_full _ _ _ full, Except.ok.injEq, eq_comm, and_iff_left (Or.inr full)]

theorem random_sample_iff (out : Finset Endpoint) :
    peers.randomSample count words = .ok out ↔ out = peers.sampled count words ∧ peers.Counted count words := by
  rw [randomSample, Counted, sampled]
  split
  case isTrue filled =>
    rw [draw_peers_iff peers count words filled _ 0 ∅ out (by decide), Nat.zero_add, Nat.sub_zero, or_iff_right filled]
  case isFalse empty =>
    have empty := not_not.mp empty
    have nothing : peers.draws words 0 (randomCutoff count) = [] := by
      simp [draws, drawn, empty]
    rw [nothing, Except.ok.injEq, eq_comm, and_iff_left (Or.inl empty)]
    rfl

theorem random_set_iff (out : Finset Endpoint) : peers.randomSet count words = .ok out ↔
    out = fillTo count.toNat peers.endpoints (peers.sampled count words) ∧ peers.Counted count words := by
  constructor
  · intro returned
    obtain ⟨sample, drawn, rest⟩ := bind_returned returned
    obtain ⟨rfl, counted⟩ := (random_sample_iff peers count words sample).mp drawn
    exact ⟨(Except.ok.inj rest).symm, counted⟩
  · rintro ⟨rfl, counted⟩
    rw [randomSet, (random_sample_iff peers count words _).mpr ⟨rfl, counted⟩, bind_ok]

theorem sampled_known : ∀ endpoint ∈ peers.sampled count words, endpoint ∈ peers.endpoints := by
  intro endpoint member
  rcases fill_among _ _ _ endpoint member with before | drawn
  · exact absurd before (Finset.notMem_empty endpoint)
  · obtain ⟨i, _, found⟩ := List.mem_filterMap.mp drawn
    exact peers.drawn_known words i endpoint found

theorem sampled_room : (peers.sampled count words).card ≤ count.toNat := fill_card_le _ _ _ (Nat.zero_le _)

theorem filled_enough : (fillTo count.toNat peers.endpoints (peers.sampled count words)).card = min count.toNat peers.size := by
  rw [fill_card _ peers.endpoints _ peers.unique (peers.sampled_known count words) (peers.sampled_room count words), endpoints_length]

theorem filled_known : ∀ endpoint ∈ fillTo count.toNat peers.endpoints (peers.sampled count words), endpoint ∈ peers.endpoints := by
  intro endpoint member
  rcases fill_among _ _ _ endpoint member with before | listed
  · exact peers.sampled_known count words endpoint before
  · exact listed

def undrawn : List PeerInformation := peers.byContact.filter fun peer => peer.endpoint ∉ peers.sampled count words

theorem undrawn_endpoints : peers.endpoints.filter (fun endpoint => endpoint ∉ peers.sampled count words) =
    (peers.undrawn count words).map PeerInformation.endpoint := by
  rw [endpoints, undrawn, List.filter_map]
  rfl

theorem endpoint_injective (first second : PeerInformation) (member : first ∈ peers.byContact) (member' : second ∈ peers.byContact)
    (same : first.endpoint = second.endpoint) : first = second := List.inj_on_of_nodup_map peers.unique member member' same

theorem undrawn_distinct : (peers.undrawn count words).Nodup := (peers.unique.of_map _).filter _

theorem undrawn_size : (peers.sampled count words).card + (peers.undrawn count words).length = peers.size := by
  have parts := unchosen_length peers.endpoints _ peers.unique (peers.sampled_known count words)
  rwa [undrawn_endpoints, List.length_map, endpoints_length] at parts

theorem added_iff (peer : PeerInformation) (member : peer ∈ peers.byContact) :
    peer.endpoint ∈ fillTo count.toNat peers.endpoints (peers.sampled count words) ↔
      peer.endpoint ∈ peers.sampled count words ∨ peer ∈ (peers.undrawn count words).take
      (count.toNat - (peers.sampled count words).card) := by
  rw [fill_eq _ peers.endpoints _ peers.unique, Finset.mem_union, List.mem_toFinset, undrawn_endpoints, ← List.map_take, List.mem_map]
  constructor
  · rintro (sample | ⟨other, taken, same⟩)
    · exact Or.inl sample
    · have listed : other ∈ peers.byContact := (List.mem_filter.mp (List.mem_of_mem_take taken)).1
      exact Or.inr (peers.endpoint_injective other peer listed member same ▸ taken)
  · rintro (sample | taken)
    · exact Or.inl sample
    · exact Or.inr ⟨peer, taken, rfl⟩

theorem left_out_iff (peer : PeerInformation) (member : peer ∈ peers.byContact) :
    peer.endpoint ∉ fillTo count.toNat peers.endpoints (peers.sampled count words) ↔
      peer ∈ (peers.undrawn count words).drop (count.toNat - (peers.sampled count words).card) := by
  have parts := List.take_append_drop (count.toNat - (peers.sampled count words).card) (peers.undrawn count words)
  have apart := peers.undrawn_distinct count words
  rw [← parts] at apart
  rw [added_iff peers count words peer member, not_or]
  constructor
  · rintro ⟨new, untaken⟩
    have listed : peer ∈ peers.undrawn count words := List.mem_filter.mpr ⟨member, decide_eq_true new⟩
    rw [← parts] at listed
    exact (List.mem_append.mp listed).resolve_left untaken
  · intro left
    have listed : peer ∈ peers.undrawn count words := List.mem_of_mem_drop left
    exact ⟨of_decide_eq_true (List.mem_filter.mp listed).2, fun taken => List.disjoint_of_nodup_append apart taken left⟩

theorem fresh_iff : (∀ added ∈ peers.byContact, added.endpoint ∈ fillTo count.toNat peers.endpoints (peers.sampled count words) →
      added.endpoint ∉ peers.sampled count words → ∀ other ∈ peers.byContact,
      other.endpoint ∉ fillTo count.toNat peers.endpoints (peers.sampled count words) → other.lastContact ≤ added.lastContact) ↔
    count.toNat ≤ (peers.sampled count words).card ∨ peers.size ≤ count.toNat ∨
      ∀ older ∈ peers.undrawn count words, ∀ newer ∈ peers.undrawn count words, older.lastContact = newer.lastContact := by
  have room := peers.sampled_room count words
  have size := peers.undrawn_size count words
  have cut := ordered_cut_iff PeerInformation.lastContact (count.toNat - (peers.sampled count words).card) (peers.undrawn count words)
    (peers.ordered.filter _)
  have none_added : count.toNat - (peers.sampled count words).card = 0 ↔ count.toNat ≤ (peers.sampled count words).card := by omega
  have none_left : (peers.undrawn count words).length ≤ count.toNat - (peers.sampled count words).card ↔
    peers.size ≤ count.toNat := by omega
  rw [none_added, none_left] at cut
  rw [← cut]
  constructor
  · intro fresh added front other back
    have listed := List.mem_filter.mp (List.mem_of_mem_take front)
    have listed' := (List.mem_filter.mp (List.mem_of_mem_drop back)).1
    exact fresh added listed.1 ((peers.added_iff count words added listed.1).mpr (Or.inr front))
      (of_decide_eq_true listed.2) other listed'
      ((peers.left_out_iff count words other listed').mpr back)
  · intro above added listed chosen new other listed' left
    have front := ((peers.added_iff count words added listed).mp chosen).resolve_left new
    exact above added front other ((peers.left_out_iff count words other listed').mp left)

theorem random_set_chosen_iff :
    (∃ sampled chosen, peers.randomSample count words = .ok sampled ∧ peers.randomSet count words = .ok chosen ∧
      Chosen peers count sampled chosen) ↔
    peers.Counted count words ∧ (count.toNat ≤ (peers.sampled count words).card ∨ peers.size ≤ count.toNat ∨
      ∀ older ∈ peers.undrawn count words, ∀ newer ∈ peers.undrawn count words, older.lastContact = newer.lastContact) := by
  rw [← fresh_iff]
  constructor
  · rintro ⟨sampled, chosen, drawn, returned, wanted⟩
    obtain ⟨rfl, counted⟩ := (random_sample_iff peers count words sampled).mp drawn
    obtain ⟨rfl, _⟩ := (random_set_iff peers count words chosen).mp returned
    exact ⟨counted, wanted.fresh⟩
  · rintro ⟨counted, fresh⟩
    exact ⟨_, _, (random_sample_iff peers count words _).mpr ⟨rfl, counted⟩, (random_set_iff peers count words _).mpr ⟨rfl, counted⟩,
      peers.filled_enough count words, peers.filled_known count words, fresh⟩

end PeerContainer

def peerAt (port contact : Nat) : PeerInformation := ⟨⟨1, BitVec.ofNat 16 port⟩, contact⟩

def threePeers : PeerContainer where
  byContact := [peerAt 1 10, peerAt 2 20, peerAt 3 30]
  byPosition := [peerAt 3 30, peerAt 1 10, peerAt 2 20]
  same := by decide
  unique := by decide
  ordered := by decide

-- All draws give the same peer. The other one that is returned is the one that has been silent longest.
theorem oldest_added :
    threePeers.randomSample 2 (fun _ => 0) = .ok {(peerAt 3 30).endpoint} ∧
    threePeers.randomSet 2 (fun _ => 0) = .ok {(peerAt 1 10).endpoint, (peerAt 3 30).endpoint} ∧
    ¬ ∃ sampled chosen, threePeers.randomSample 2 (fun _ => 0) = .ok sampled ∧ threePeers.randomSet 2 (fun _ => 0) = .ok chosen ∧
      threePeers.Chosen 2 sampled chosen := by
  have drawn : threePeers.randomSample 2 (fun _ => 0) = .ok {(peerAt 3 30).endpoint} := by decide
  have returned : threePeers.randomSet 2 (fun _ => 0) = .ok {(peerAt 1 10).endpoint, (peerAt 3 30).endpoint} := rfl
  refine ⟨drawn, returned, ?_⟩
  rintro ⟨sampled, chosen, drawn', returned', wanted⟩
  obtain rfl := Except.ok.inj (drawn.symm.trans drawn')
  obtain rfl := Except.ok.inj (returned.symm.trans returned')
  have fresh := wanted.fresh (peerAt 1 10) (by decide) (by decide) (by decide) (peerAt 2 20) (by decide) (by decide)
  exact absurd fresh (by decide)

end Rai
