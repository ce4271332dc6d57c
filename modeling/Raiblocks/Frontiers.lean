import Raiblocks.PullClient
import Raiblocks.Chains
import Raiblocks.Kit.Cursor

set_option autoImplicit false

namespace Rai

open Kit

-- `frontier_req_client`, with the pulls of its attempt and the unsynced table. `current` walks through the local accounts
-- and is zero once it is past the last of them.
structure FrontierClient where
  current : Account
  info : AccountInfo
  pulls : List PullInfo
  unsynced : Finset Hash
  finished : Bool

namespace FrontierClient

section Model

variable (network : Network) (s : Store) (owned : Account → Bool)

def next (client : FrontierClient) : FrontierClient :=
  match s.accounts.seek (client.current + 1) with
  | some (account, info) => { client with current := account, info := info }
  | none => { client with current := 0 }

def markUnsynced : Nat → Hash → Hash → Finset Hash → Except Fault (Finset Hash)
  | 0, _, _, _ => .error .fuel
  | fuel + 1, current, theirs, marked =>
      if current = 0 ∨ current = theirs then .ok marked
      else do
        let found ← blockGet s current
        let block ← require found
        markUnsynced fuel block.previous theirs (insert current marked)

def markOwned (fuel : Nat) (client : FrontierClient) (theirs : Hash) : Except Fault FrontierClient :=
  if owned client.current = true then do
    let marked ← markUnsynced s fuel client.info.head theirs client.unsynced
    .ok { client with unsynced := marked }
  else .ok client

-- The accounts we know about and they do not: those before their next account, or all that are left.
def passOurs (before : Account → Bool) : Nat → FrontierClient → Except Fault FrontierClient
  | 0, _ => .error .fuel
  | fuel + 1, client =>
      if client.current ≠ 0 ∧ before client.current = true then do
        let marked ← markOwned s owned fuel client 0
        passOurs before fuel (next s marked)
      else .ok client

def addPull (client : FrontierClient) (pull : PullInfo) : FrontierClient :=
  { client with pulls := Rai.addPull network client.pulls pull }

def compareHeads (fuel : Nat) (client : FrontierClient) (account : Account) (latest : Hash) : Except Fault FrontierClient :=
  if latest = client.info.head then .ok client
  else if blockExists s latest = true then markOwned s owned fuel client latest
  else .ok (addPull network client (pullInfo account latest client.info.head))

def compareAccounts (fuel : Nat) (client : FrontierClient) (account : Account) (latest : Hash) : Except Fault FrontierClient :=
  if client.current ≠ 0 then
    if account = client.current then do
      let compared ← compareHeads network s owned fuel client account latest
      .ok (next s compared)
    else do
      ensure (account < client.current)
      .ok (addPull network client (pullInfo account latest 0))
  else .ok (addPull network client (pullInfo account latest 0))

def receivedFrontier (fuel : Nat) (client : FrontierClient) (reply : Account × Hash) : Except Fault FrontierClient :=
  if reply.1 ≠ 0 then do
    let passed ← passOurs s owned (fun ours => decide (ours < reply.1)) fuel client
    compareAccounts network s owned fuel passed reply.1 reply.2
  else do
    let passed ← passOurs s owned (fun _ => true) fuel client
    .ok { passed with finished := true }

-- Nothing is read from the connection after the terminator.
def step (fuel : Nat) (client : FrontierClient) (reply : Account × Hash) : Except Fault FrontierClient :=
  if client.finished = true then .ok client else receivedFrontier network s owned fuel client reply

def start (pulls : List PullInfo) (unsynced : Finset Hash) : FrontierClient := next s ⟨0, .fresh, pulls, unsynced, false⟩

def run (fuel : Nat) (pulls : List PullInfo) (unsynced : Finset Hash) (replies : List (Account × Hash)) : Except Fault FrontierClient :=
  replies.foldlM (step network s owned fuel) (start s pulls unsynced)

end Model

end FrontierClient

def wantedPull (s : Store) (reply : Account × Hash) : Option PullInfo :=
  match s.accounts.get reply.1 with
  | none => some (pullInfo reply.1 reply.2 0)
  | some info => if blockExists s reply.2 = true then none else some (pullInfo reply.1 reply.2 info.head)

-- The blocks of an account that the peer lacks: the whole chain if it does not list the account, the blocks above its
-- head if it does and the head is a block of the chain, the whole chain again if the head is a block of another chain.
def Lacking (s : Store) (owned : Account → Bool) (remote : List (Account × Hash)) (account : Account) (x : Hash) : Prop :=
  owned account = true ∧ OnChain s account x ∧
    (account ∉ remote.map Prod.fst ∨
      ∃ h info, (account, h) ∈ remote ∧ s.accounts.get account = some info ∧ blockExists s h = true ∧ h ≠ info.head ∧
        (OnChain s account h → ∃ k, 0 < k ∧ Path s x k h))

theorem walk_cons (s : Store) (x theirs y : Hash) (block : Block) (read : blockGet s x = .ok (some block))
    (differs : x ≠ theirs) (length : Nat) : (∃ k, k < length + 1 ∧ Path s x k y ∧ ∀ j, j ≤ k → ¬ Path s x j theirs) ↔
      y = x ∨ ∃ k, k < length ∧ Path s block.previous k y ∧ ∀ j, j ≤ k → ¬ Path s block.previous j theirs := by
  have longer := fun k y => path_succ_iff y k read
  have here : ¬ Path s x 0 theirs := fun path => differs ((path_zero_iff s x theirs).mp path).symm
  constructor
  · rintro ⟨k, low, path, clear⟩
    cases k with
    | zero => exact Or.inl ((path_zero_iff s x y).mp path)
    | succ k =>
        refine Or.inr ⟨k, by omega, (longer k y).mp path, fun j small other => ?_⟩
        exact clear (j + 1) (by omega) ((longer j theirs).mpr other)
  · rintro (same | ⟨k, low, path, clear⟩)
    · refine ⟨0, by omega, (path_zero_iff s x y).mpr same, fun j small => ?_⟩
      rwa [Nat.le_zero.mp small]
    · refine ⟨k + 1, by omega, (longer k y).mpr path, fun j small other => ?_⟩
      cases j with
      | zero => exact here other
      | succ j => exact clear j (by omega) ((longer j theirs).mp other)

section Walk

variable {env : Env} {L : Lattice} {s : Store} [HashesApart env] (consistent : Consistent env L) (agrees : Agrees L s)

include consistent agrees

theorem mark_unsynced_settles (fuel : Nat) (x : Hash) (n : Note) (stored : L.get x = some n) (theirs : Hash) (marked : Finset Hash) :
    Settles (FrontierClient.markUnsynced s fuel x theirs marked) (Starved (n.height + 1 ≤ fuel)) fun out =>
      ∀ y, y ∈ out ↔ y ∈ marked ∨ ∃ k, k < n.height ∧ Path s x k y ∧ ∀ j, j ≤ k → ¬ Path s x j theirs := by
  induction fuel generalizing x n marked with
  | zero => exact ⟨rfl, by omega⟩
  | succ fuel ih =>
      unfold FrontierClient.markUnsynced
      have nonzero := stored_ne_zero consistent x n stored
      by_cases met : x = theirs
      · rw [if_pos (Or.inr met)]
        refine (settles_ok _ _ _).mpr fun y => ⟨Or.inl, ?_⟩
        rintro (old | ⟨k, _, _, clear⟩)
        · exact old
        · exact absurd (met ▸ Path.start x) (clear 0 (Nat.zero_le k))
      rw [if_neg (not_or.mpr ⟨nonzero, met⟩)]
      obtain ⟨block, read, reads⟩ := get_reads_as agrees.blocks x n stored
      refine settles_step read (settles_step (require_some block) ?_)
      have below := reads_as_previous n.block reads
      have walk := fun y => walk_cons s x theirs y block read met
      rw [below] at walk ⊢
      by_cases first : n.block.previous = 0
      · -- The open block is the last one, and the walk stops at its zero `previous`.
        have bottom := (open_height consistent stored).mpr first
        rw [first]
        cases fuel with
        | zero => exact ⟨rfl, by omega⟩
        | succ fuel =>
            unfold FrontierClient.markUnsynced
            rw [if_pos (Or.inl rfl)]
            refine (settles_ok _ _ _).mpr fun y => ?_
            rw [Finset.mem_insert, bottom, walk y 0, or_comm]
            simp
      · obtain ⟨before, present, follows⟩ := stored_before consistent stored first
        refine settles_mono (settles_enough (ih n.block.previous before present (insert x marked)) (by have := follows.height; omega))
          (fun _ => id) ?_
        intro out deeper y
        rw [deeper y, Finset.mem_insert, follows.height, walk y before.height, or_left_comm, or_assoc]

theorem chain_above (account : Account) (info : AccountInfo) (known : s.accounts.get account = some info) (theirs y : Hash) :
    (∃ k, k < info.blockCount ∧ Path s info.head k y ∧ ∀ j, j ≤ k → ¬ Path s info.head j theirs) ↔
      OnChain s account y ∧ (OnChain s account theirs → ∃ k, 0 < k ∧ Path s y k theirs) := by
  constructor
  · rintro ⟨k, within, path, clear⟩
    refine ⟨⟨info, k, known, within, path⟩, ?_⟩
    rintro ⟨info', p, known', _, path'⟩
    cases known.symm.trans known'
    have deeper : k < p := Nat.lt_of_not_le fun met => clear p met path'
    refine ⟨p - k, by omega, path_rest info.head y theirs k (p - k) path ?_⟩
    rwa [Nat.add_sub_cancel' deeper.le]
  · rintro ⟨chained, above⟩
    obtain ⟨h, n, latest, owner, same⟩ := account_owned agrees known
    obtain ⟨m, stored, owner'⟩ := on_chain_stored consistent agrees chained
    obtain ⟨info', k, known', within, path⟩ := chained
    cases known.symm.trans known'
    refine ⟨k, within, path, fun j small met => ?_⟩
    have met' : OnChain s account theirs := ⟨info, j, known, by omega, met⟩
    obtain ⟨d, positive, down⟩ := above met'
    obtain ⟨m', stored', _⟩ := on_chain_stored consistent agrees met'
    have head : L.get info.head = some n := same ▸ latest.1
    have level := path_height consistent agrees info.head y k path n m head stored
    have level' := path_height consistent agrees info.head theirs j met n m' head stored'
    have level'' := path_height consistent agrees y theirs d down m m' stored stored'
    omega

variable {rank : Hash → Nat} {top : Nat} (ranked : Ranked rank top L) (owned : Account → Bool)

include ranked

theorem mark_owned_settles (fuel : Nat) (client : FrontierClient)
    (known : s.accounts.get client.current = some client.info) (theirs : Hash) :
    Settles (FrontierClient.markOwned s owned fuel client theirs) (Starved (top + 1 ≤ fuel)) fun out =>
      ∃ marked, out = { client with unsynced := marked } ∧ ∀ y, y ∈ marked ↔ y ∈ client.unsynced ∨
        owned client.current = true ∧ OnChain s client.current y ∧
        (OnChain s client.current theirs → ∃ k, 0 < k ∧ Path s y k theirs) := by
  unfold FrontierClient.markOwned
  split
  · next mine =>
      obtain ⟨h, n, latest, owner, same⟩ := account_owned agrees known
      have head : client.info.head = h := by rw [same]; rfl
      have count : client.info.blockCount = n.height := by rw [same]; rfl
      have walk := mark_unsynced_settles consistent agrees fuel h n latest.1 theirs client.unsynced
      rw [← head, ← count] at walk
      have low := height_le_top consistent ranked h n latest.1
      refine settles_bind (settles_enough walk (by omega)) fun marked members => ?_
      refine (settles_ok _ _ _).mpr ⟨marked, rfl, fun y => ?_⟩
      rw [members y, chain_above consistent agrees client.current client.info known theirs y, and_iff_right mine]
  · next other => exact (settles_ok _ _ _).mpr ⟨client.unsynced, rfl, fun y => by simp [other]⟩

end Walk

def Passed (client : FrontierClient) (account : Account) : Prop := client.current = 0 ∨ account < client.current

instance passedDecidable (client : FrontierClient) (account : Account) : Decidable (Passed client account) :=
  inferInstanceAs (Decidable (_ ∨ _))

theorem account_succ_le_iff {x : Account} (y : Account) (room : x ≠ BitVec.allOnes 256) : x + 1 ≤ y ↔ x < y := by
  have ones : (BitVec.allOnes 256).toNat = 2 ^ 256 - 1 := BitVec.toNat_allOnes
  bv_omega

theorem next_spec (s : Store) (client : FrontierClient) (room : client.current ≠ BitVec.allOnes 256) :
    ((client.next s).current ≠ 0 → s.accounts.get (client.next s).current = some (client.next s).info) ∧
    Passed (client.next s) client.current ∧
    ∀ account, s.accounts.get account ≠ none → client.current < account → ¬ Passed (client.next s) account := by
  unfold FrontierClient.next
  split
  · next account info found =>
      obtain ⟨known, bound, least⟩ := s.accounts.seek_some _ account info found
      have above := (account_succ_le_iff account room).mp bound
      refine ⟨fun _ => known, Or.inr above, fun other present after => ?_⟩
      have low := least other present ((account_succ_le_iff other room).mpr after)
      rintro (zero | before)
      · have : account = 0 := zero
        bv_omega
      · exact absurd before (not_lt.mpr low)
  · next none =>
      refine ⟨fun nonzero => absurd rfl nonzero, Or.inl rfl, fun other present after => ?_⟩
      have low := s.accounts.seek_none _ none other present
      exact absurd ((account_succ_le_iff other room).mpr after) (not_le.mpr low)

@[simp] theorem next_pulls (s : Store) (client : FrontierClient) : (client.next s).pulls = client.pulls := by
  unfold FrontierClient.next
  split <;> rfl

@[simp] theorem next_unsynced (s : Store) (client : FrontierClient) : (client.next s).unsynced = client.unsynced := by
  unfold FrontierClient.next
  split <;> rfl

@[simp] theorem next_finished (s : Store) (client : FrontierClient) : (client.next s).finished = client.finished := by
  unfold FrontierClient.next
  split <;> rfl

-- What the client has done after the replies `done`: the common accounts among them and the local accounts before them
-- are passed and settled.
structure Merging (s : Store) (owned : Account → Bool) (remote : List (Account × Hash)) (pulls : List PullInfo) (unsynced : Finset Hash)
    (done : List (Account × Hash)) (client : FrontierClient) : Prop where
  going : client.finished = false
  known : client.current ≠ 0 → s.accounts.get client.current = some client.info
  ahead : ∀ reply ∈ done, Passed client reply.1
  pulls : client.pulls.Perm (pulls ++ done.filterMap (wantedPull s))
  unsynced : ∀ x, x ∈ client.unsynced ↔ x ∈ unsynced ∨ ∃ account, Passed client account ∧ Lacking s owned remote account x

def left (s : Store) (client : FrontierClient) : Nat := (s.accounts.keys.filter fun account => ¬ Passed client account).card

theorem on_chain_known {s : Store} {account : Account} {x : Hash} (chained : OnChain s account x) : s.accounts.get account ≠ none := by
  obtain ⟨info, _, known, _⟩ := chained
  simp [known]

section Merge

variable {s : Store} {owned : Account → Bool} {remote : List (Account × Hash)} {pulls : List PullInfo} {unsynced : Finset Hash}
  (last : s.accounts.get (BitVec.allOnes 256) = none)

include last

theorem current_room (client : FrontierClient) (known : s.accounts.get client.current ≠ none) :
    client.current ≠ BitVec.allOnes 256 := by
  intro same
  rw [same] at known
  exact known last

theorem next_passed (client : FrontierClient) (here : client.current ≠ 0) (known : s.accounts.get client.current ≠ none)
    (account : Account) (present : s.accounts.get account ≠ none) :
    Passed (client.next s) account ↔ Passed client account ∨ account = client.current := by
  obtain ⟨_, passed, ahead⟩ := next_spec s client (current_room last client known)
  constructor
  · intro beyond
    by_contra unpassed
    obtain ⟨behind, apart⟩ := not_or.mp unpassed
    have later : client.current ≤ account := not_lt.mp fun before => behind (Or.inr before)
    exact ahead account present (lt_of_le_of_ne later (Ne.symm apart)) beyond
  · rintro ((zero | before) | rfl)
    · exact absurd zero here
    · exact passed.imp_right before.trans
    · exact passed

theorem left_next (client : FrontierClient) (here : client.current ≠ 0) (known : s.accounts.get client.current ≠ none) :
    left s (client.next s) < left s client := by
  have passed := next_passed last client here known
  apply Finset.card_lt_card
  refine (Finset.ssubset_iff_of_subset fun account member => ?_).mpr ⟨client.current, ?_, ?_⟩
  · obtain ⟨present, ahead⟩ := Finset.mem_filter.mp member
    refine Finset.mem_filter.mpr ⟨present, fun behind => ahead ?_⟩
    exact (passed account ((Table.mem_keys _ _).mp present)).mpr (Or.inl behind)
  · refine Finset.mem_filter.mpr ⟨(Table.mem_keys _ _).mpr known, ?_⟩
    rintro (zero | before)
    · exact here zero
    · exact lt_irrefl _ before
  · intro member
    exact (Finset.mem_filter.mp member).2 ((passed _ known).mpr (Or.inr rfl))

theorem merging_next (done done' : List (Account × Hash)) (client settled : FrontierClient)
    (merging : Merging s owned remote pulls unsynced done client) (here : client.current ≠ 0) (going : settled.finished = false)
    (same : settled.current = client.current) (listed : ∀ reply ∈ done', reply ∈ done ∨ reply.1 = client.current)
    (wanted : settled.pulls.Perm (pulls ++ done'.filterMap (wantedPull s)))
    (marked : ∀ x, x ∈ settled.unsynced ↔ x ∈ client.unsynced ∨ Lacking s owned remote client.current x) :
    Merging s owned remote pulls unsynced done' (settled.next s) := by
  have known : s.accounts.get settled.current ≠ none := by
    rw [same, merging.known here]
    exact Option.some_ne_none _
  have passed := next_passed last settled (same ▸ here) known
  obtain ⟨known', beyond, _⟩ := next_spec s settled (current_room last settled known)
  have unmoved : ∀ account, Passed settled account ↔ Passed client account := fun account => by rw [Passed, same, Passed]
  refine ⟨(next_finished s settled).trans going, known', ?_, ?_, ?_⟩
  · intro reply member
    obtain earlier | current := listed reply member
    · obtain zero | before := merging.ahead reply earlier
      · exact absurd zero here
      · exact beyond.imp_right (same ▸ before).trans
    · rw [current, ← same]
      exact beyond
  · rwa [next_pulls]
  · intro x
    rw [next_unsynced, marked x, merging.unsynced x, or_assoc]
    refine or_congr_right ⟨?_, ?_⟩
    · rintro (⟨account, before, lacking⟩ | lacking)
      · exact ⟨account, (passed account (on_chain_known lacking.2.1)).mpr (Or.inl ((unmoved account).mpr before)), lacking⟩
      · exact ⟨client.current, (passed _ (on_chain_known lacking.2.1)).mpr (Or.inr same.symm), lacking⟩
    · rintro ⟨account, after, lacking⟩
      obtain before | rfl := (passed account (on_chain_known lacking.2.1)).mp after
      · exact Or.inl ⟨account, (unmoved account).mp before, lacking⟩
      · exact Or.inr (same ▸ lacking)

variable {env : Env} {L : Lattice} [HashesApart env] (consistent : Consistent env L) (agrees : Agrees L s)
  {rank : Hash → Nat} {top : Nat}
  (ranked : Ranked rank top L)

include consistent agrees

omit last in
theorem lacking_unlisted (account : Account) (unlisted : account ∉ remote.map Prod.fst) (x : Hash) :
    Lacking s owned remote account x ↔
      owned account = true ∧ OnChain s account x ∧ (OnChain s account 0 → ∃ k, 0 < k ∧ Path s x k 0) := by
  have zero : ¬ OnChain s account 0 := by
    intro chained
    obtain ⟨m, stored, _⟩ := on_chain_stored consistent agrees chained
    exact stored_ne_zero consistent 0 m stored rfl
  exact ⟨fun lacking => ⟨lacking.1, lacking.2.1, fun chained => absurd chained zero⟩, fun marked =>
    ⟨marked.1, marked.2.1, Or.inl unlisted⟩⟩

include ranked

theorem pass_ours_settles (before : Account → Bool) (done : List (Account × Hash)) (fuel : Nat) (client : FrontierClient)
    (merging : Merging s owned remote pulls unsynced done client)
    (unlisted : ∀ account, s.accounts.get account ≠ none → ¬ Passed client account → before account = true →
    account ∉ remote.map Prod.fst) :
    Settles (FrontierClient.passOurs s owned before fuel client) (Starved (left s client + top + 1 < fuel)) fun out =>
      Merging s owned remote pulls unsynced done out ∧ (out.current = 0 ∨ before out.current = false) ∧
      ∀ account, s.accounts.get account ≠ none → Passed out account → Passed client account ∨ before account = true := by
  induction fuel generalizing client with
  | zero => exact ⟨rfl, by omega⟩
  | succ fuel ih =>
      unfold FrontierClient.passOurs
      split
      · next guard =>
          obtain ⟨here, earlier⟩ := guard
          have known := merging.known here
          have present : s.accounts.get client.current ≠ none := by simp [known]
          have unpassed : ¬ Passed client client.current := not_or.mpr ⟨here, lt_irrefl _⟩
          refine settles_bind (settles_enough (mark_owned_settles consistent agrees ranked owned fuel client known 0) (by omega)) ?_
          rintro _ ⟨marked, rfl, members⟩
          simp only [← lacking_unlisted consistent agrees _ (unlisted _ present unpassed earlier)] at members
          have onward := merging_next last done done client { client with unsynced := marked } merging here merging.going rfl
            (fun _ => Or.inl) merging.pulls members
          have passed := next_passed last { client with unsynced := marked } here present
          have shorter : left s (FrontierClient.next s { client with unsynced := marked }) < left s client :=
            left_next last { client with unsynced := marked } here present
          refine settles_mono (settles_enough (ih _ onward ?_) (by omega)) (fun _ => id) ?_
          · intro account known' ahead
            exact unlisted account known' fun behind => ahead ((passed account known').mpr (Or.inl behind))
          · rintro out ⟨merged, stopped, only⟩
            refine ⟨merged, stopped, fun account known' after => ?_⟩
            obtain moved | early := only account known' after
            · obtain old | rfl := (passed account known').mp moved
              · exact Or.inl old
              · exact Or.inr earlier
            · exact Or.inr early
      · next guard =>
          refine (settles_ok _ _ _).mpr ⟨merging, ?_, fun _ _ => Or.inl⟩
          by_cases here : client.current = 0
          · exact Or.inl here
          · exact Or.inr (Bool.eq_false_iff.mpr fun earlier => guard ⟨here, earlier⟩)

theorem compare_heads_settles (done : List (Account × Hash)) (reply : Account × Hash) (fuel : Nat) (client : FrontierClient)
    (merging : Merging s owned remote pulls unsynced done client) (here : client.current ≠ 0) (same : reply.1 = client.current)
    (listed : ∀ h, (client.current, h) ∈ remote ↔ h = reply.2) :
    Settles (FrontierClient.compareHeads env.network s owned fuel client reply.1 reply.2) (Starved (top + 1 ≤ fuel)) fun out =>
      Merging s owned remote pulls unsynced (done ++ [reply]) (out.next s) ∧ out.current = client.current := by
  have known := merging.known here
  have inside : client.current ∈ remote.map Prod.fst := List.mem_map.mpr ⟨_, (listed reply.2).mpr rfl, rfl⟩
  have lacking_iff : ∀ x, Lacking s owned remote client.current x ↔ owned client.current = true ∧ OnChain s client.current x ∧
      blockExists s reply.2 = true ∧ reply.2 ≠ client.info.head ∧
      (OnChain s client.current reply.2 → ∃ k, 0 < k ∧ Path s x k reply.2) := by
    intro x
    refine and_congr_right fun _ => and_congr_right fun _ => ⟨?_, ?_⟩
    · rintro (unlisted | ⟨h, info, member, known', rest⟩)
      · exact absurd inside unlisted
      · cases known.symm.trans known'
        exact (listed h).mp member ▸ rest
    · exact fun rest => Or.inr ⟨reply.2, client.info, (listed _).mpr rfl, known, rest⟩
  have among : ∀ other ∈ done ++ [reply], other ∈ done ∨ other.1 = client.current := by
    intro other member
    obtain earlier | rfl := List.mem_append.mp member |>.imp_right List.mem_singleton.mp
    · exact Or.inl earlier
    · exact Or.inr same
  have onward := fun settled => merging_next last done (done ++ [reply]) client settled merging here
  -- Where the block is there nothing is pulled.
  have unwanted : blockExists s reply.2 = true → (done ++ [reply]).filterMap (wantedPull s) = done.filterMap (wantedPull s) := by
    intro stored
    have skipped : wantedPull s reply = none := by simp [wantedPull, same, known, stored]
    rw [List.filterMap_append, List.filterMap_cons_none skipped, List.filterMap_nil, List.append_nil]
  unfold FrontierClient.compareHeads
  split
  · next insync =>
      have stored : blockExists s reply.2 = true := by
        obtain ⟨h, n, latest, _, head⟩ := account_owned agrees known
        rw [insync, head]
        exact exists_stored agrees.blocks latest.1
      refine (settles_ok _ _ _).mpr ⟨onward client merging.going rfl among ?_ fun x => ?_, rfl⟩
      · rw [unwanted stored]
        exact merging.pulls
      · rw [lacking_iff x]
        simp [insync]
  · next differs =>
      split
      · next stored =>
          refine settles_mono (mark_owned_settles consistent agrees ranked owned fuel client known reply.2) (fun _ => id) ?_
          rintro _ ⟨marked, rfl, members⟩
          refine ⟨onward { client with unsynced := marked } merging.going rfl among ?_ fun x => ?_, rfl⟩
          · rw [unwanted stored]
            exact merging.pulls
          · rw [lacking_iff x, members x]
            simp [stored, differs]
      · next absent =>
          have wanted : wantedPull s reply = some (pullInfo reply.1 reply.2 client.info.head) := by
            simp [wantedPull, same, known, absent]
          refine (settles_ok _ _ _).mpr ⟨onward _ merging.going rfl among ?_ fun x => ?_, rfl⟩
          · rw [List.filterMap_append, List.filterMap_cons_some wanted, List.filterMap_nil, ← List.append_assoc]
            exact (add_pull_perm _ _ _).trans ((merging.pulls.cons _).trans (List.perm_append_singleton _ _).symm)
          · rw [lacking_iff x]
            simp [FrontierClient.addPull, absent]

omit last [HashesApart env] consistent agrees ranked in
theorem merging_pull (network : Network) (done : List (Account × Hash)) (reply : Account × Hash) (client : FrontierClient)
    (merging : Merging s owned remote pulls unsynced done client) (unknown : s.accounts.get reply.1 = none)
    (passed : Passed client reply.1) :
    Merging s owned remote pulls unsynced (done ++ [reply]) (client.addPull network (pullInfo reply.1 reply.2 0)) := by
  have wanted : wantedPull s reply = some (pullInfo reply.1 reply.2 0) := by simp [wantedPull, unknown]
  refine ⟨merging.going, merging.known, fun other member => ?_, ?_, merging.unsynced⟩
  · obtain earlier | rfl := List.mem_append.mp member |>.imp_right List.mem_singleton.mp
    · exact merging.ahead other earlier
    · exact passed
  · rw [List.filterMap_append, List.filterMap_cons_some wanted, List.filterMap_nil, ← List.append_assoc]
    exact (add_pull_perm _ _ _).trans ((merging.pulls.cons _).trans (List.perm_append_singleton _ _).symm)

omit last [HashesApart env] consistent agrees ranked in
theorem left_le (s : Store) (client : FrontierClient) : left s client ≤ s.accounts.keys.card := Finset.card_filter_le _ _

theorem compare_accounts_settles (done : List (Account × Hash)) (reply : Account × Hash) (fuel : Nat) (client : FrontierClient)
    (merging : Merging s owned remote pulls unsynced done client) (reached : client.current = 0 ∨ reply.1 ≤ client.current)
    (behind : ∀ account, s.accounts.get account ≠ none → Passed client account → account < reply.1)
    (listed : ∀ h, (reply.1, h) ∈ remote ↔ h = reply.2) :
    Settles (FrontierClient.compareAccounts env.network s owned fuel client reply.1 reply.2) (Starved (top + 1 ≤ fuel)) fun out =>
      Merging s owned remote pulls unsynced (done ++ [reply]) out ∧
      ∀ account, s.accounts.get account ≠ none → Passed out account → account ≤ reply.1 := by
  -- A local account that the cursor is past would come before the reply.
  have unknown : Passed client reply.1 → s.accounts.get reply.1 = none := fun passed => by
    by_contra known
    exact lt_irrefl _ (behind reply.1 known passed)
  unfold FrontierClient.compareAccounts
  split
  · next here =>
      have low := reached.resolve_left here
      split
      · next same =>
          have present : s.accounts.get client.current ≠ none := by simp [merging.known here]
          refine settles_bind (compare_heads_settles last consistent agrees ranked done reply fuel client merging here same
            (same ▸ listed)) ?_
          rintro compared ⟨merged, unmoved⟩
          refine (settles_ok _ _ _).mpr ⟨merged, fun account known after => ?_⟩
          obtain before | reached := (next_passed last compared (unmoved ▸ here) (unmoved ▸ present) account known).mp after
          · rw [Passed, unmoved] at before
            exact (behind account known before).le
          · rw [reached, unmoved, same]
      · next other =>
          have before := lt_of_le_of_ne low other
          refine settles_step (ensure_true _ before)
            ((settles_ok _ _ _).mpr ⟨?_, fun account known after => (behind account known after).le⟩)
          exact merging_pull env.network done reply client merging (unknown (Or.inr before)) (Or.inr before)
  · next exhausted =>
      have passed : Passed client reply.1 := Or.inl (not_not.mp exhausted)
      refine (settles_ok _ _ _).mpr ⟨?_, fun account known after => (behind account known after).le⟩
      exact merging_pull env.network done reply client merging (unknown passed) passed

theorem received_frontier_settles (done rest : List (Account × Hash)) (reply : Account × Hash) (fuel : Nat) (client : FrontierClient)
    (whole : remote = done ++ reply :: rest) (ascending : (remote.map Prod.fst).Pairwise (· < ·)) (nonzero : reply.1 ≠ 0)
    (merging : Merging s owned remote pulls unsynced done client)
    (behind : ∀ account, s.accounts.get account ≠ none → Passed client account → ∃ other ∈ done, account ≤ other.1) :
    Settles (FrontierClient.receivedFrontier env.network s owned fuel client reply)
    (Starved (s.accounts.keys.card + top + 1 < fuel)) fun out =>
      Merging s owned remote pulls unsynced (done ++ [reply]) out ∧
      ∀ account, s.accounts.get account ≠ none → Passed out account → ∃ other ∈ done ++ [reply], account ≤ other.1 := by
  rw [whole, List.map_append, List.map_cons, List.pairwise_append, List.pairwise_cons] at ascending
  obtain ⟨_, ⟨later, _⟩, earlier⟩ := ascending
  have smaller : ∀ other ∈ done, other.1 < reply.1 := fun other member =>
    earlier other.1 (List.mem_map_of_mem member) reply.1 List.mem_cons_self
  have larger : ∀ other ∈ rest, reply.1 < other.1 := fun other member => later other.1 (List.mem_map_of_mem member)
  have listed : ∀ h, (reply.1, h) ∈ remote ↔ h = reply.2 := by
    intro h
    rw [whole, List.mem_append, List.mem_cons]
    constructor
    · rintro (before | same | after)
      · exact absurd (smaller _ before) (lt_irrefl _)
      · exact (Prod.mk.inj same).2
      · exact absurd (larger _ after) (lt_irrefl _)
    · rintro rfl
      exact Or.inr (Or.inl rfl)
  have unlisted : ∀ account, s.accounts.get account ≠ none → ¬ Passed client account → decide (account < reply.1) = true →
      account ∉ remote.map Prod.fst := by
    intro account _ ahead before member
    obtain ⟨other, inside, rfl⟩ := List.mem_map.mp member
    rw [whole, List.mem_append, List.mem_cons] at inside
    obtain old | rfl | new := inside
    · exact ahead (merging.ahead other old)
    · exact lt_irrefl _ (of_decide_eq_true before)
    · exact lt_asymm (of_decide_eq_true before) (larger other new)
  have few := left_le s client
  unfold FrontierClient.receivedFrontier
  rw [if_pos nonzero]
  refine settles_bind (settles_enough (pass_ours_settles last consistent agrees ranked _ done fuel client merging unlisted) (by omega))
    ?_
  rintro passed ⟨merged, stopped, only⟩
  have stopped' : passed.current = 0 ∨ reply.1 ≤ passed.current := stopped.imp_right fun early => not_lt.mp (of_decide_eq_false early)
  refine settles_mono (settles_enough
    (compare_accounts_settles last consistent agrees ranked done reply fuel passed merged stopped' ?_ listed) (by omega))
    (fun _ => id) ?_
  · intro account known after
    obtain before | early := only account known after
    · obtain ⟨other, member, low⟩ := behind account known before
      exact low.trans_lt (smaller other member)
    · exact of_decide_eq_true early
  · rintro out ⟨compared, low⟩
    exact ⟨compared, fun account known after => ⟨reply, List.mem_append_right done List.mem_cons_self, low account known after⟩⟩

omit last ranked in
-- The first account after zero is the first of all: no block belongs to the zero account.
theorem start_merging (owned : Account → Bool) (remote : List (Account × Hash)) (pulls : List PullInfo) (unsynced : Finset Hash) :
    Merging s owned remote pulls unsynced [] (FrontierClient.start s pulls unsynced) ∧
    ∀ account, s.accounts.get account ≠ none → ¬ Passed (FrontierClient.start s pulls unsynced) account := by
  have room : (0 : Account) ≠ BitVec.allOnes 256 := by decide
  obtain ⟨known, _, ahead⟩ := next_spec s ⟨0, .fresh, pulls, unsynced, false⟩ room
  have unpassed : ∀ account, s.accounts.get account ≠ none → ¬ Passed (FrontierClient.start s pulls unsynced) account := by
    intro account present
    obtain ⟨info, found⟩ := Option.ne_none_iff_exists'.mp present
    obtain ⟨h, n, newest, owner, _⟩ := account_owned agrees found
    have nonzero : account ≠ 0 := owner ▸ stored_account_ne_zero consistent newest.1
    have positive : (0 : Account) < account := by bv_omega
    exact ahead account present positive
  refine ⟨⟨next_finished s _, known, fun _ member => absurd member List.not_mem_nil, ?_, fun x => ?_⟩, unpassed⟩
  · rw [FrontierClient.start, next_pulls, List.filterMap_nil, List.append_nil]
  · rw [FrontierClient.start, next_unsynced]
    refine ⟨Or.inl, ?_⟩
    rintro (old | ⟨account, passed, lacking⟩)
    · exact old
    · exact absurd passed (unpassed account (on_chain_known lacking.2.1))

theorem terminator_settles (fuel : Nat) (client : FrontierClient)
    (merging : Merging s owned remote pulls unsynced remote client) (latest : Hash) :
    Settles (FrontierClient.receivedFrontier env.network s owned fuel client (0, latest))
    (Starved (s.accounts.keys.card + top + 1 < fuel)) fun out =>
      out.finished = true ∧ out.pulls.Perm (pulls ++ remote.filterMap (wantedPull s)) ∧
      ∀ x, x ∈ out.unsynced ↔ x ∈ unsynced ∨ ∃ account, Lacking s owned remote account x := by
  have few := left_le s client
  unfold FrontierClient.receivedFrontier
  rw [if_neg (not_not.mpr rfl)]
  refine settles_bind (settles_enough (pass_ours_settles last consistent agrees ranked (fun _ => true) remote fuel client merging ?_)
    (by omega)) ?_
  · intro account _ ahead _ member
    obtain ⟨other, inside, rfl⟩ := List.mem_map.mp member
    exact ahead (merging.ahead other inside)
  · rintro passed ⟨drained, final, _⟩
    have ended : passed.current = 0 := final.resolve_right (by decide)
    refine (settles_ok _ _ _).mpr ⟨rfl, drained.pulls, fun x => ?_⟩
    rw [drained.unsynced x]
    exact or_congr_right (exists_congr fun account => and_iff_right (Or.inl ended))

end Merge

-- The merge of the local accounts with the peer's frontiers is exact: what is pulled and what is marked depend on the two
-- sides alone, not on how the cursor gets through them.
theorem frontiers_merged (env : Env) (apart : HashesApart env) (s : Store) (reached : Reachable env s)
    (last : s.accounts.get (BitVec.allOnes 256) = none) (owned : Account → Bool) (pulls : List PullInfo) (unsynced : Finset Hash)
    (remote : List (Account × Hash)) (ascending : (remote.map Prod.fst).Pairwise (· < ·)) (nonzero : ∀ reply ∈ remote, reply.1 ≠ 0)
    (latest : Hash) :
    ∃ bound, ∀ fuel, bound ≤ fuel → ∃ client,
      FrontierClient.run env.network s owned fuel pulls unsynced (remote ++ [(0, latest)]) = .ok client ∧ client.finished = true ∧
      client.pulls.Perm (pulls ++ remote.filterMap (wantedPull s)) ∧
      ∀ x, x ∈ client.unsynced ↔ x ∈ unsynced ∨ ∃ account, Lacking s owned remote account x := by
  obtain ⟨L, consistent, agrees⟩ := reachable_agrees reached
  obtain ⟨rank, top, ranked⟩ := exists_ranked consistent
  obtain ⟨begun, unpassed⟩ := start_merging consistent agrees owned remote pulls unsynced
  refine ⟨s.accounts.keys.card + top + 2, fun fuel enough => ?_⟩
  have more : s.accounts.keys.card + top + 1 < fuel := by omega
  refine settles_returns ?_ more
  rw [FrontierClient.run, List.foldlM_append]
  refine settles_bind (settles_fold
    (fun done client => Merging s owned remote pulls unsynced done client ∧
      ∀ account, s.accounts.get account ≠ none → Passed client account → ∃ other ∈ done, account ≤ other.1)
    remote _ ⟨begun, fun account present passed => absurd passed (unpassed account present)⟩ ?_) ?_
  · rintro done reply rest client whole ⟨merging, behind⟩
    rw [FrontierClient.step, if_neg (by simp [merging.going])]
    have member : reply ∈ remote := whole ▸ List.mem_append_right done List.mem_cons_self
    exact received_frontier_settles last consistent agrees ranked done rest reply fuel client whole ascending (nonzero reply member)
      merging behind
  · rintro client ⟨merging, _⟩
    rw [List.foldlM_cons, FrontierClient.step, if_neg (by simp [merging.going])]
    exact settles_bind (terminator_settles last consistent agrees ranked fuel client merging latest) fun _ => id

def sampleFrontiers : List (Account × Hash) := [(sampleKey 1, 9), (sampleKey 2, sampleOpenMore.hash sampleEnv), (sampleKey 5, 7)]

theorem frontiers_merged_sample : ∃ s bound, Replay sampleEnv sampleLog s ∧ ∀ fuel, bound ≤ fuel → ∃ client,
    FrontierClient.run sampleEnv.network s (fun _ => true) fuel [] ∅ (sampleFrontiers ++ [(0, 0)]) = .ok client ∧
    client.finished = true ∧
    client.pulls.Perm [pullInfo (sampleKey 1) 9 (sampleOpen.hash sampleEnv), pullInfo (sampleKey 5) 7 0] := by
  obtain ⟨s, _, replay, last, wanted⟩ := replay_checked sampleEnv 20 sampleLog (fun s => s.accounts.get (BitVec.allOnes 256) = none ∧
    sampleFrontiers.filterMap (wantedPull s) = [pullInfo (sampleKey 1) 9 (sampleOpen.hash sampleEnv), pullInfo (sampleKey 5) 7 0])
    (by decide +kernel)
  have nonzero : sampleFrontiers.all (fun reply => decide (reply.1 ≠ 0)) = true := by decide +kernel
  obtain ⟨bound, merged⟩ := frontiers_merged sampleEnv sample_apart s (replay_reachable replay) last (fun _ => true) [] ∅
    sampleFrontiers (by decide +kernel) (fun reply member => of_decide_eq_true (List.all_eq_true.mp nonzero reply member)) 0
  refine ⟨s, bound, replay, fun fuel enough => ?_⟩
  obtain ⟨client, returned, finished, pulls, _⟩ := merged fuel enough
  rw [wanted] at pulls
  exact ⟨client, returned, finished, pulls⟩

end Rai
