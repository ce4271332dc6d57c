import Raiblocks.Kit.Runs
import Raiblocks.WalletKeys

set_option autoImplicit false

namespace Rai

open Kit

-- The accounts that are moved: all up to the first that cannot be fetched, or not any more.
def movedAccounts (env : WalletEnv) (origin : WalletStore) : List Key → List Key → List Key
  | moved, [] => moved
  | moved, pub :: rest =>
      if pub ∈ moved ∨ origin.reveal env pub = none then moved else movedAccounts env origin (moved ++ [pub]) rest

theorem mem_moved (env : WalletEnv) (origin : WalletStore) (keys moved : List Key) (once : moved.Nodup) (pub : Key) :
    pub ∈ movedAccounts env origin moved keys ↔ pub ∈ moved ∨ ∃ before, before ++ [pub] <+: keys ∧ (moved ++ (before ++ [pub])).Nodup ∧
      ∀ k ∈ before ++ [pub], origin.reveal env k ≠ none := by
  induction keys generalizing moved with
  | nil => simp [movedAccounts]
  | cons first rest ih =>
      rw [movedAccounts]
      split
      · next stops =>
          refine (or_iff_left ?_).symm
          rintro ⟨before, isPrefix, distinct, fetched⟩
          have listed : first ∈ before ++ [pub] := by
            obtain ⟨_, rfl⟩ | ⟨between, rfl, _⟩ := prefix_cons isPrefix
            · exact List.mem_append_right _ List.mem_cons_self
            · exact List.mem_append_left _ List.mem_cons_self
          obtain seen | missing := stops
          · exact (List.nodup_append.mp distinct).2.2 first seen first listed rfl
          · exact fetched first listed missing
      · next goes =>
          obtain ⟨unseen, present⟩ := not_or.mp goes
          have further : (moved ++ [first]).Nodup := List.nodup_append.mpr ⟨once, List.nodup_singleton first, by
            intro a seen b here same
            rw [List.mem_singleton.mp here] at same
            exact unseen (same ▸ seen)⟩
          rw [ih (moved ++ [first]) further]
          constructor
          · rintro (member | ⟨before, inside, distinct, fetched⟩)
            · obtain seen | here := List.mem_append.mp member
              · exact Or.inl seen
              · rw [List.mem_singleton.mp here]
                exact Or.inr ⟨[], by simp, further, by simpa using present⟩
            · refine Or.inr ⟨first :: before, List.cons_prefix_cons.mpr ⟨rfl, inside⟩, by simpa using distinct, ?_⟩
              exact List.forall_mem_cons.mpr ⟨present, fetched⟩
          · rintro (seen | ⟨before, isPrefix, distinct, fetched⟩)
            · exact Or.inl (List.mem_append_left _ seen)
            · obtain ⟨_, rfl⟩ | ⟨between, rfl, inside⟩ := prefix_cons isPrefix
              · exact Or.inl (List.mem_append_right _ List.mem_cons_self)
              · exact Or.inr ⟨between, inside, by simpa using distinct, fun k member => fetched k (List.mem_cons_of_mem _ member)⟩

structure Apart (s t : WalletStore) (accounts : List Key) : Prop where
  password : t.password = s.password
  mem : t.walletKeyMem = s.walletKeyMem
  same : ∀ k, k ∉ accounts → t.entries.get k = s.entries.get k

section Apart

variable {env : WalletEnv} {s t : WalletStore} {accounts : List Key}

theorem apart_special (apart : Apart s t accounts) (known : ∀ k ∈ accounts, specialCount ≤ k) (special : Key)
    (low : special < specialCount) :
    t.entryGetRaw special = s.entryGetRaw special := by
  rw [WalletStore.entryGetRaw, apart.same special fun member => absurd (known special member) (not_le.mpr low)]
  rfl

theorem apart_frame (apart : Apart s t accounts) (known : ∀ k ∈ accounts, specialCount ≤ k) : Frame s t :=
  frame_specials apart.mem fun special member => apart_special apart known special (frame_special special member).1

theorem apart_valid (apart : Apart s t accounts) (known : ∀ k ∈ accounts, specialCount ≤ k) :
    t.validPassword env = s.validPassword env := valid_frame (apart_frame apart known) (by rw [apart.password])

theorem apart_reveal (apart : Apart s t accounts) (known : ∀ k ∈ accounts, specialCount ≤ k) (pub : Key) (other : pub ∉ accounts) :
    t.reveal env pub = s.reveal env pub := by
  have entry : t.entryGetRaw pub = s.entryGetRaw pub := by
    rw [WalletStore.entryGetRaw, apart.same pub other]
    rfl
  exact WalletStore.reveal_same s t pub entry (apart_frame apart known).check (apart_special apart known seedSpecial (by decide))

theorem reveal_vacant (pub : Key) (vacant : s.entries.get pub = none) : s.reveal env pub = none := by
  have entry : s.entryGetRaw pub = ⟨0, 0⟩ := by
    rw [WalletStore.entryGetRaw, vacant]
    rfl
  rw [WalletStore.reveal, entry]
  rfl

end Apart

structure Moved (env : WalletEnv) (wallet source : Key) (into origin : WalletStore) (items : Table Key WalletStore)
    (moved : List Key) : Prop where
  fetched : ∀ k ∈ moved, origin.reveal env k ≠ none
  taken : ∃ s, items.get source = some s ∧ Apart origin s moved ∧ ∀ k ∈ moved, s.entries.get k = none
  given : wallet ≠ source → ∃ s, items.get wallet = some s ∧ Apart into s moved ∧
    ∀ k ∈ moved, ∀ prv, origin.reveal env k = some prv → s.entries.get k = some ⟨prv ^^^ into.check, 0⟩

section Loop

variable {env : WalletEnv} {wallet source : Key} {into origin : WalletStore} {items : Table Key WalletStore} {moved : List Key}

theorem moved_known (proper : ∀ prv, specialCount ≤ env.publicKey prv) (state : Moved env wallet source into origin items moved) :
    ∀ k ∈ moved, specialCount ≤ k := by
  intro k member
  by_contra special
  exact state.fetched k member (reveal_special proper k (not_le.mp special))

theorem reveal_owner (s : WalletStore) {pub prv : Key} (revealed : s.reveal env pub = some prv) : env.publicKey prv = pub := by
  rw [WalletStore.reveal, Option.filter_eq_some_iff] at revealed
  exact (of_decide_eq_true revealed.2).symm

theorem moved_fetch (proper : ∀ prv, specialCount ≤ env.publicKey prv) (unlocked : origin.validPassword env = true)
    (state : Moved env wallet source into origin items moved) (pub : Key) :
    ∃ s, items.get source = some s ∧ s.validPassword env = true ∧ Apart origin s moved ∧ (∀ k ∈ moved, s.entries.get k = none) ∧
      s.reveal env pub = if pub ∈ moved then none else origin.reveal env pub := by
  obtain ⟨s, found, apart, gone⟩ := state.taken
  have known := moved_known proper state
  refine ⟨s, found, (apart_valid apart known).trans unlocked, apart, gone, ?_⟩
  split
  · next seen => exact reveal_vacant pub (gone pub seen)
  · next unseen => exact apart_reveal apart known pub unseen

theorem move_stops (proper : ∀ prv, specialCount ≤ env.publicKey prv) (unlocked : origin.validPassword env = true)
    (state : Moved env wallet source into origin items moved) (pub : Key) (stops : pub ∈ moved ∨ origin.reveal env pub = none) :
    moveAccount env wallet source (items, false) pub = .ok (items, true) := by
  obtain ⟨s, found, valid, _, _, revealed⟩ := moved_fetch proper unlocked state pub
  have missing : s.reveal env pub = none := by
    rw [revealed]
    split
    · rfl
    · next unseen => exact stops.resolve_left unseen
  simp only [moveAccount, found, require_some, bind_ok, WalletStore.fetch_valid s valid, missing]

theorem move_after_error (proper : ∀ prv, specialCount ≤ env.publicKey prv) (unlocked : origin.validPassword env = true)
    (state : Moved env wallet source into origin items moved) (keys : List Key) :
    keys.foldlM (moveAccount env wallet source) (items, true) = .ok (items, true) := by
  induction keys with
  | nil => rfl
  | cons pub rest ih =>
      obtain ⟨s, found, valid, _⟩ := moved_fetch proper unlocked state pub
      have turn : moveAccount env wallet source (items, true) pub = .ok (items, true) := by
        simp only [moveAccount, found, require_some, bind_ok, WalletStore.fetch_valid s valid]
        split <;> rfl
      rw [List.foldlM_cons, turn, bind_ok, ih]

-- The wallet that an account is erased from may have got it just before.
theorem apart_erase {s t : WalletStore} (apart : Apart origin s moved) (gone : ∀ k ∈ moved, s.entries.get k = none) (pub : Key)
    (touched : Apart s t [pub]) :
    Apart origin { t with entries := t.entries.del pub } (moved ++ [pub]) ∧
      ∀ k ∈ moved ++ [pub], ({ t with entries := t.entries.del pub } : WalletStore).entries.get k = none := by
  have kept : ∀ k, k ≠ pub → (t.entries.del pub).get k = s.entries.get k := by
    intro k other
    rw [Table.get_del_ne _ _ _ other, touched.same k fun here => other (List.mem_singleton.mp here)]
  refine ⟨⟨touched.password.trans apart.password, touched.mem.trans apart.mem, fun k unlisted => ?_⟩, fun k listed => ?_⟩
  · obtain ⟨unseen, other⟩ := not_or.mp (List.mem_append.not.mp unlisted)
    exact (kept k fun same => other (List.mem_singleton.mpr same)).trans (apart.same k unseen)
  · by_cases same : k = pub
    · exact same ▸ Table.get_del_self _ _
    · have seen : k ∈ moved := (List.mem_append.mp listed).resolve_right fun here => same (List.mem_singleton.mp here)
      exact (kept k same).trans (gone k seen)

theorem apart_put (s : WalletStore) (pub : Key) (value : WalletValue) : Apart s (s.entryPutRaw pub value) [pub] :=
  ⟨rfl, rfl, fun k other => by rw [WalletStore.get_put, if_neg fun same => other (List.mem_singleton.mpr same)]⟩

theorem present_revealed (s : WalletStore) (pub : Key) (revealed : s.reveal env pub ≠ none) : (s.entries.get pub).isSome = true := by
  by_contra vacant
  exact revealed (reveal_vacant pub (Option.not_isSome_iff_eq_none.mp vacant))

theorem fetched_append (state : Moved env wallet source into origin items moved) (pub : Key) (present : origin.reveal env pub ≠ none) :
    ∀ k ∈ moved ++ [pub], origin.reveal env k ≠ none := by
  intro k listed
  obtain seen | here := List.mem_append.mp listed
  · exact state.fetched k seen
  · rw [List.mem_singleton.mp here]
    exact present

theorem move_within (proper : ∀ prv, specialCount ≤ env.publicKey prv) (unlocked : origin.validPassword env = true)
    (state : Moved env source source into origin items moved) (pub prv : Key) (unseen : pub ∉ moved)
    (present : origin.reveal env pub = some prv) :
    ∃ after, moveAccount env source source (items, false) pub = .ok (after, false) ∧
      Moved env source source into origin after (moved ++ [pub]) := by
  obtain ⟨s, found, valid, apart, gone, revealed⟩ := moved_fetch proper unlocked state pub
  rw [if_neg unseen, present] at revealed
  have owner := reveal_owner s revealed
  have holds : ((s.entryPutRaw pub ⟨prv ^^^ s.check, 0⟩).entries.get pub).isSome = true := by
    rw [WalletStore.get_put, if_pos rfl]
    rfl
  refine ⟨(items.put source (s.entryPutRaw pub ⟨prv ^^^ s.check, 0⟩)).put source
    { s with entries := (s.entryPutRaw pub ⟨prv ^^^ s.check, 0⟩).entries.del pub }, ?_, ?_, ?_, (absurd rfl ·)⟩
  · simp only [moveAccount, found, require_some, bind_ok, WalletStore.fetch_valid s valid, revealed,
      WalletStore.insert_adhoc_valid s valid, owner, Table.get_put_self, WalletStore.erase, ensure_true _ holds]
    rfl
  · exact fetched_append state pub (by rw [present]; exact Option.some_ne_none prv)
  · exact ⟨_, Table.get_put_self _ _ _, apart_erase apart gone pub (apart_put s pub ⟨prv ^^^ s.check, 0⟩)⟩

theorem move_across (proper : ∀ prv, specialCount ≤ env.publicKey prv) (ready : into.validPassword env = true)
    (unlocked : origin.validPassword env = true) (two : wallet ≠ source)
    (state : Moved env wallet source into origin items moved) (pub prv : Key) (unseen : pub ∉ moved)
    (present : origin.reveal env pub = some prv) :
    ∃ after, moveAccount env wallet source (items, false) pub = .ok (after, false) ∧
      Moved env wallet source into origin after (moved ++ [pub]) := by
  obtain ⟨s, found, valid, apart, gone, revealed⟩ := moved_fetch proper unlocked state pub
  rw [if_neg unseen, present] at revealed
  have owner := reveal_owner s revealed
  have holds := present_revealed s pub (by rw [revealed]; exact Option.some_ne_none prv)
  obtain ⟨u, reached, beside, values⟩ := state.given two
  have known := moved_known proper state
  have opened : u.validPassword env = true := (apart_valid beside known).trans ready
  have inserted := WalletStore.insert_adhoc_valid u opened prv
  rw [owner, (apart_frame beside known).check] at inserted
  refine ⟨(items.put wallet (u.entryPutRaw pub ⟨prv ^^^ into.check, 0⟩)).put source
    { s with entries := s.entries.del pub }, ?_, ?_, ?_, ?_⟩
  · simp only [moveAccount, found, require_some, bind_ok, WalletStore.fetch_valid s valid, revealed, reached, inserted,
      Table.get_put_ne _ _ _ _ two.symm, WalletStore.erase, ensure_true _ holds]
    rfl
  · exact fetched_append state pub (by rw [present]; exact Option.some_ne_none prv)
  · exact ⟨_, Table.get_put_self _ _ _, apart_erase apart gone pub ⟨rfl, rfl, fun _ _ => rfl⟩⟩
  · intro _
    refine ⟨_, (Table.get_put_ne _ _ _ _ two).trans (Table.get_put_self _ _ _), ⟨beside.password, beside.mem, fun k unlisted => ?_⟩,
      fun k listed secret held => ?_⟩
    · obtain ⟨unmoved, other⟩ := not_or.mp (List.mem_append.not.mp unlisted)
      rw [WalletStore.get_put, if_neg fun same => other (List.mem_singleton.mpr same), beside.same k unmoved]
    · rw [WalletStore.get_put]
      split
      · next here =>
          rw [here, present] at held
          cases held
          rfl
      · next other =>
          exact values k ((List.mem_append.mp listed).resolve_right fun here => other (List.mem_singleton.mp here)) secret held

theorem move_loop (proper : ∀ prv, specialCount ≤ env.publicKey prv) (ready : into.validPassword env = true)
    (unlocked : origin.validPassword env = true) (keys : List Key) (state : Moved env wallet source into origin items moved) :
    ∃ out, keys.foldlM (moveAccount env wallet source) (items, false) = .ok out ∧
      Moved env wallet source into origin out.1 (movedAccounts env origin moved keys) := by
  induction keys generalizing items moved with
  | nil => exact ⟨_, rfl, state⟩
  | cons pub rest ih =>
      rw [List.foldlM_cons, movedAccounts]
      split
      · next stops =>
          rw [move_stops proper unlocked state pub stops, bind_ok, move_after_error proper unlocked state rest]
          exact ⟨_, rfl, state⟩
      · next goes =>
          obtain ⟨unseen, present⟩ := not_or.mp goes
          obtain ⟨prv, revealed⟩ := Option.ne_none_iff_exists'.mp present
          have turn : ∃ after, moveAccount env wallet source (items, false) pub = .ok (after, false) ∧
              Moved env wallet source into origin after (moved ++ [pub]) := by
            by_cases one : wallet = source
            · subst one
              exact move_within proper unlocked state pub prv unseen revealed
            · exact move_across proper ready unlocked one state pub prv unseen revealed
          obtain ⟨after, returned, next⟩ := turn
          rw [returned, bind_ok]
          exact ih next

end Loop

def ReadsBack (env : WalletEnv) (into : WalletStore) (prv : Key) : Prop :=
  match keyType ⟨prv ^^^ into.check, 0⟩ with
  | .adhoc => True
  | .deterministic => env.deterministicKey (into.seed env) ((prv ^^^ into.check).setWidth 32) = prv
  | .unknown => False

def Fetchable (env : WalletEnv) (items : Table Key WalletStore) (wallet source prv : Key) : Prop :=
  ∃ id s, (id = wallet ∨ id = source) ∧ items.get id = some s ∧ s.fetch env (env.publicKey prv) = .ok (some prv)

section Outcome

variable {env : WalletEnv} {wallet source : Key} {into origin : WalletStore} {items after : Table Key WalletStore} {moved : List Key}

theorem fetchable_iff (target : items.get wallet = some into) (taken : items.get source = some origin)
    (ready : into.validPassword env = true) (unlocked : origin.validPassword env = true) (prv : Key) :
    Fetchable env items wallet source prv ↔
      into.reveal env (env.publicKey prv) = some prv ∨ origin.reveal env (env.publicKey prv) = some prv := by
  constructor
  · rintro ⟨id, s, rfl | rfl, found, fetched⟩
    · rw [target] at found
      cases found
      rw [WalletStore.fetch_valid into ready] at fetched
      exact Or.inl (Except.ok.inj fetched)
    · rw [taken] at found
      cases found
      rw [WalletStore.fetch_valid origin unlocked] at fetched
      exact Or.inr (Except.ok.inj fetched)
  · rintro (revealed | revealed)
    · exact ⟨wallet, into, Or.inl rfl, target, by rw [WalletStore.fetch_valid into ready, revealed]⟩
    · exact ⟨source, origin, Or.inr rfl, taken, by rw [WalletStore.fetch_valid origin unlocked, revealed]⟩

theorem reads_back_iff {u : WalletStore} (proper : ∀ prv, specialCount ≤ env.publicKey prv) (ready : into.validPassword env = true)
    (state : Moved env wallet source into origin items moved) (beside : Apart into u moved) (pub prv : Key)
    (value : u.entries.get pub = some ⟨prv ^^^ into.check, 0⟩) (owner : env.publicKey prv = pub) :
    u.reveal env pub = some prv ↔ ReadsBack env into prv := by
  have known := moved_known proper state
  have entry : u.entryGetRaw pub = ⟨prv ^^^ into.check, 0⟩ := by
    rw [WalletStore.entryGetRaw, value]
    rfl
  rw [WalletStore.reveal, entry, ReadsBack, (apart_frame beside known).check, apart_special beside known seedSpecial (by decide),
    WalletStore.seed_valid into ready]
  dsimp only
  cases keyType ⟨prv ^^^ into.check, 0⟩ with
  | adhoc =>
      rw [xor_cancel, Option.filter_eq_some_iff]
      exact iff_of_true ⟨rfl, decide_eq_true owner.symm⟩ trivial
  | unknown => simp
  | deterministic =>
      rw [Option.filter_eq_some_iff, Option.some.injEq]
      exact and_iff_left (decide_eq_true owner.symm)

def Accepts (env : WalletEnv) (wallet source : Key) (into : WalletStore) (pub prv : Key) : Prop :=
  wallet ≠ source ∧ ReadsBack env into prv ∧ (into.reveal env pub = none ∨ into.reveal env pub = some prv)

theorem kept_within (proper : ∀ prv, specialCount ≤ env.publicKey prv) (unlocked : origin.validPassword env = true)
    (state : Moved env source source origin origin after moved) :
    (∀ prv, origin.reveal env (env.publicKey prv) = some prv → Fetchable env after source source prv) ↔
      ∀ pub ∈ moved, ∀ prv, origin.reveal env pub = some prv → Accepts env source source origin pub prv := by
  constructor
  · intro keeps pub listed prv revealed
    obtain ⟨s, found, valid, _, _, result⟩ := moved_fetch proper unlocked state pub
    have owner := reveal_owner origin revealed
    have fetchable := (fetchable_iff found found valid valid prv).mp (keeps prv (owner.symm ▸ revealed))
    rw [owner, or_self, result, if_pos listed] at fetchable
    cases fetchable
  · intro accepts prv revealed
    obtain ⟨s, found, valid, _, _, result⟩ := moved_fetch proper unlocked state (env.publicKey prv)
    have unmoved : env.publicKey prv ∉ moved := fun listed => (accepts _ listed prv revealed).1 rfl
    rw [if_neg unmoved] at result
    exact (fetchable_iff found found valid valid prv).mpr (Or.inl (result.trans revealed))

theorem kept_across (proper : ∀ prv, specialCount ≤ env.publicKey prv) (ready : into.validPassword env = true)
    (unlocked : origin.validPassword env = true) (two : wallet ≠ source) (state : Moved env wallet source into origin after moved) :
    (∀ prv, into.reveal env (env.publicKey prv) = some prv ∨ origin.reveal env (env.publicKey prv) = some prv →
        Fetchable env after wallet source prv) ↔
      ∀ pub ∈ moved, ∀ prv, origin.reveal env pub = some prv → Accepts env wallet source into pub prv := by
  obtain ⟨u, reached, beside, values⟩ := state.given two
  have known := moved_known proper state
  have opened : u.validPassword env = true := (apart_valid beside known).trans ready
  constructor
  · intro keeps pub listed prv revealed
    obtain ⟨s, found, valid, _, _, result⟩ := moved_fetch proper unlocked state pub
    rw [if_pos listed] at result
    -- Nothing is left of the account in the source, so what can be fetched is in the target.
    have there : ∀ secret, env.publicKey secret = pub → Fetchable env after wallet source secret → u.reveal env pub = some secret := by
      intro secret owner fetchable
      have either := (fetchable_iff reached found opened valid secret).mp fetchable
      rw [owner, result] at either
      exact either.resolve_right fun none => by cases none
    have owner := reveal_owner origin revealed
    have arrived := there prv owner (keeps prv (Or.inr (owner.symm ▸ revealed)))
    refine ⟨two, (reads_back_iff proper ready state beside pub prv (values pub listed prv revealed) owner).mp arrived, ?_⟩
    cases before : into.reveal env pub with
    | none => exact Or.inl rfl
    | some secret =>
        have owned := reveal_owner into before
        have kept := there secret owned (keeps secret (Or.inl (owned.symm ▸ before)))
        exact Or.inr (kept.symm.trans arrived)
  · intro accepts prv before
    obtain ⟨s, found, valid, _, _, result⟩ := moved_fetch proper unlocked state (env.publicKey prv)
    rw [fetchable_iff reached found opened valid prv, result]
    split
    · next listed =>
        obtain ⟨secret, revealed⟩ := Option.ne_none_iff_exists'.mp (state.fetched _ listed)
        obtain ⟨_, reads, held⟩ := accepts _ listed secret revealed
        have owner := reveal_owner origin revealed
        have arrived := (reads_back_iff proper ready state beside _ secret (values _ listed secret revealed) owner).mpr reads
        have same : secret = prv := by
          obtain own | taken := before
          · rw [own] at held
            exact (Option.some.inj (held.resolve_left (Option.some_ne_none prv))).symm
          · rw [taken] at revealed
            exact (Option.some.inj revealed).symm
        exact Or.inl (same ▸ arrived)
    · next unmoved => rw [apart_reveal beside known _ unmoved]; exact before

theorem move_kept_iff (proper : ∀ prv, specialCount ≤ env.publicKey prv) (target : items.get wallet = some into)
    (taken : items.get source = some origin) (ready : into.validPassword env = true) (unlocked : origin.validPassword env = true)
    (state : Moved env wallet source into origin after moved) :
    (∀ prv, Fetchable env items wallet source prv → Fetchable env after wallet source prv) ↔
      ∀ pub ∈ moved, ∀ prv, origin.reveal env pub = some prv → Accepts env wallet source into pub prv := by
  simp only [fetchable_iff target taken ready unlocked]
  by_cases one : wallet = source
  · subst one
    rw [target] at taken
    cases taken
    simp only [or_self]
    exact kept_within proper unlocked state
  · exact kept_across proper ready unlocked one state

end Outcome

theorem move_keeps_keys_iff (env : WalletEnv) (proper : ∀ prv, specialCount ≤ env.publicKey prv) (items : Table Key WalletStore)
    (wallet source : Key) (into origin : WalletStore) (keys : List Key) (target : items.get wallet = some into)
    (taken : items.get source = some origin) (ready : into.validPassword env = true) (unlocked : origin.validPassword env = true) :
    ∃ out, walletMove env items wallet source keys = .ok out ∧
      ((∀ prv, Fetchable env items wallet source prv → Fetchable env out.1 wallet source prv) ↔
        ∀ before pub prv, before ++ [pub] <+: keys → (before ++ [pub]).Nodup → (∀ k ∈ before, origin.fetch env k ≠ .ok none) →
          origin.fetch env pub = .ok (some prv) →
          wallet ≠ source ∧ ReadsBack env into prv ∧ (into.fetch env pub = .ok none ∨ into.fetch env pub = .ok (some prv))) := by
  have start : Moved env wallet source into origin items [] :=
    ⟨by simp, ⟨origin, taken, ⟨rfl, rfl, fun _ _ => rfl⟩, by simp⟩, fun _ => ⟨into, target, ⟨rfl, rfl, fun _ _ => rfl⟩, by simp⟩⟩
  obtain ⟨out, returned, state⟩ := move_loop proper ready unlocked keys start
  refine ⟨out, ?_, ?_⟩
  · simp only [walletMove, target, taken, require_some, bind_ok, ensure_true _ ready, ensure_true _ unlocked, returned]
  · rw [move_kept_iff proper target taken ready unlocked state]
    simp only [WalletStore.fetch_valid origin unlocked, WalletStore.fetch_valid into ready, Except.ok.injEq, ne_eq]
    constructor
    · intro accepts before pub prv inside distinct fetched revealed
      refine accepts pub ((mem_moved env origin keys [] List.nodup_nil pub).mpr (Or.inr ⟨before, inside, distinct, ?_⟩)) prv revealed
      intro k listed
      obtain earlier | here := List.mem_append.mp listed
      · exact fetched k earlier
      · rw [List.mem_singleton.mp here, revealed]
        exact Option.some_ne_none prv
    · intro accepts pub listed prv revealed
      obtain none | ⟨before, inside, distinct, fetched⟩ := (mem_moved env origin keys [] List.nodup_nil pub).mp listed
      · cases none
      · exact accepts before pub prv inside distinct (fun k earlier => fetched k (List.mem_append_left _ earlier)) revealed

def sampleItems (s t : WalletStore) : Table Key WalletStore :=
  (Table.empty.put 1 (s.entryPutRaw (sampleWalletEnv.publicKey 77) ⟨77 ^^^ s.check, 0⟩)).put 2 t

theorem move_keeps_keys_iff_sample : ∃ s t out, WalletStore.create sampleWalletEnv 0 1 9 5 [] [] = .ok s ∧
    WalletStore.create sampleWalletEnv 0 2 8 6 [] [] = .ok t ∧
    walletMove sampleWalletEnv (sampleItems s t) 2 1 [sampleWalletEnv.publicKey 77] = .ok out ∧
    Fetchable sampleWalletEnv (sampleItems s t) 2 1 77 ∧ Fetchable sampleWalletEnv out.1 2 1 77 := by
  obtain ⟨s, created, valid, _⟩ := @create_keeps sampleWalletEnv 0 1 9 [] [] 5
  obtain ⟨t, prepared, ready, _⟩ := @create_keeps sampleWalletEnv 0 2 8 [] [] 6
  let pub := sampleWalletEnv.publicKey 77
  let origin := s.entryPutRaw pub ⟨77 ^^^ s.check, 0⟩
  have unlocked : origin.validPassword sampleWalletEnv = true :=
    (valid_frame (frame_put s pub _ (account_other pub (sample_keys_proper 77))) rfl).trans valid
  have computed :
    (WalletStore.create sampleWalletEnv 0 1 9 5 [] [] >>= fun s => (WalletStore.create sampleWalletEnv 0 2 8 6 [] []).map fun t =>
      ((s.entryPutRaw pub ⟨77 ^^^ s.check, 0⟩).fetch sampleWalletEnv pub, t.fetch sampleWalletEnv pub, keyType ⟨77 ^^^ t.check, 0⟩)) =
      .ok (.ok (some 77), .ok none, .adhoc) := by decide +kernel
  rw [created, bind_ok, prepared] at computed
  obtain ⟨held, facts⟩ := Prod.mk.inj (Except.ok.inj computed)
  obtain ⟨absent, typed⟩ := Prod.mk.inj facts
  obtain ⟨out, returned, keeps⟩ := move_keeps_keys_iff sampleWalletEnv sample_keys_proper (sampleItems s t) 2 1 t origin
    [pub] rfl rfl ready unlocked
  have before : Fetchable sampleWalletEnv (sampleItems s t) 2 1 77 := ⟨1, origin, Or.inr rfl, rfl, held⟩
  refine ⟨s, t, out, created, prepared, returned, before, keeps.mpr ?_ 77 before⟩
  intro listed account prv inside _ _ found
  obtain ⟨_, rfl⟩ | ⟨_, _, beyond⟩ := prefix_cons inside
  · rw [held] at found
    cases found
    exact ⟨by decide, by rw [ReadsBack, typed]; trivial, Or.inl absent⟩
  · simp at beyond

-- The move reports no error.
theorem move_within_loses_key : (do
    let s ← WalletStore.create sampleWalletEnv 0 1 9 5 [] []
    let t ← WalletStore.create sampleWalletEnv 0 2 8 6 [] []
    let (items, result) ← walletMove sampleWalletEnv (sampleItems s t) 1 1 [sampleWalletEnv.publicKey 77]
    let before ← require ((sampleItems s t).get 1)
    let after ← require (items.get 1)
    .ok (result, ← before.fetch sampleWalletEnv (sampleWalletEnv.publicKey 77),
      ← after.fetch sampleWalletEnv (sampleWalletEnv.publicKey 77))) =
    Except.ok (false, some 77, none) := by decide +kernel

end Rai
