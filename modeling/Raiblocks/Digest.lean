import Raiblocks.Block

set_option autoImplicit false

namespace Rai

open Kit

-- The digest covers two words and a rest. No kind is named in it.
def Hashables.parts : Hashables → Hash × Hash × Bytes
  | .sendBlock previous destination balance => (previous, destination, wordBytes 16 balance)
  | .receiveBlock previous source => (previous, source, [])
  | .openBlock source representative account => (source, representative, wordBytes 32 account)
  | .changeBlock previous representative => (previous, representative, [])
  | .sendBlockV2 previous destination action => (previous, destination, action)

inductive Twin : Hashables → Hashables → Prop where
  | receiveChange (previous source : Hash) : Twin (.receiveBlock previous source) (.changeBlock previous source)
  | receiveContract (previous source : Hash) : Twin (.receiveBlock previous source) (.sendBlockV2 previous source [])
  | changeContract (previous : Hash) (representative : Account) :
      Twin (.changeBlock previous representative) (.sendBlockV2 previous representative [])
  | sendContract (previous : Hash) (destination : Account) (balance : Amount) :
      Twin (.sendBlock previous destination balance) (.sendBlockV2 previous destination (wordBytes 16 balance))
  | openContract (source : Hash) (representative account : Account) :
      Twin (.openBlock source representative account) (.sendBlockV2 source representative (wordBytes 32 account))

theorem hash_parts (a : Hashables) : a.hash = wordBytes 32 a.parts.1 ++ (wordBytes 32 a.parts.2.1 ++ a.parts.2.2) := by
  cases a <;> simp [Hashables.hash, Hashables.parts]

theorem hash_iff_parts (a b : Hashables) : a.hash = b.hash ↔ a.parts = b.parts := by
  rw [hash_parts, hash_parts]
  constructor
  · intro same
    obtain ⟨first, rest⟩ := word_append_injective 32 256 _ _ _ _ rfl same
    obtain ⟨second, rest⟩ := word_append_injective 32 256 _ _ _ _ rfl rest
    exact Prod.ext first (Prod.ext second rest)
  · intro same
    rw [same]

theorem twin_parts (a b : Hashables) (twin : Twin a b) : a.parts = b.parts ∧ a.kind ≠ b.kind := by
  cases twin <;> exact ⟨rfl, Kind.noConfusion⟩

theorem parts_same_kind (a b : Hashables) (same : a.parts = b.parts) (kind : a.kind = b.kind) : a = b := by
  cases a <;> cases b <;> cases kind <;> simp only [Hashables.parts, Prod.mk.injEq] at same
  · obtain ⟨rfl, rfl, rest⟩ := same
    rw [word_bytes_injective 16 128 _ _ rfl rest]
  · obtain ⟨rfl, rfl, _⟩ := same
    rfl
  · obtain ⟨rfl, rfl, rest⟩ := same
    rw [word_bytes_injective 32 256 _ _ rfl rest]
  · obtain ⟨rfl, rfl, _⟩ := same
    rfl
  · obtain ⟨rfl, rfl, rfl⟩ := same
    rfl

-- The rests of a receive and a change are empty, those of a send and an open have
-- sixteen and thirty-two bytes, and that of a contract send is free.
theorem parts_twin (a b : Hashables) (same : a.parts = b.parts) (kind : a.kind ≠ b.kind) : Twin a b ∨ Twin b a := by
  have rest : a.parts.2.2.length = b.parts.2.2.length := by rw [same]
  cases a <;> cases b <;> first | exact absurd rfl kind | skip
  all_goals
    simp only [Hashables.parts, Prod.mk.injEq, word_bytes_length, List.length_nil, reduceCtorEq, Nat.reduceEqDiff] at same rest
  all_goals obtain ⟨rfl, rfl, tail⟩ := same
  case receiveBlock.changeBlock => exact .inl (.receiveChange _ _)
  case changeBlock.receiveBlock => exact .inr (.receiveChange _ _)
  case sendBlock.sendBlockV2 => exact .inl (tail ▸ .sendContract _ _ _)
  case receiveBlock.sendBlockV2 => exact .inl (tail ▸ .receiveContract _ _)
  case openBlock.sendBlockV2 => exact .inl (tail ▸ .openContract _ _ _)
  case changeBlock.sendBlockV2 => exact .inl (tail ▸ .changeContract _ _)
  case sendBlockV2.sendBlock => exact .inr (tail ▸ .sendContract _ _ _)
  case sendBlockV2.receiveBlock => exact .inr (tail ▸ .receiveContract _ _)
  case sendBlockV2.openBlock => exact .inr (tail ▸ .openContract _ _ _)
  case sendBlockV2.changeBlock => exact .inr (tail ▸ .changeContract _ _)

def SameDigest (a b : Block) : Prop :=
  a.hashables = b.hashables ∨ Twin a.hashables b.hashables ∨ Twin b.hashables a.hashables

theorem same_digest_iff (a b : Block) : a.hashables.hash = b.hashables.hash ↔ SameDigest a b := by
  rw [hash_iff_parts]
  constructor
  · intro same
    by_cases kind : a.hashables.kind = b.hashables.kind
    · exact .inl (parts_same_kind _ _ same kind)
    · exact .inr (parts_twin _ _ same kind)
  · rintro (same | twin | twin)
    · rw [same]
    · exact (twin_parts _ _ twin).1
    · exact (twin_parts _ _ twin).1.symm

def Binding (env : Env) : Prop :=
  ∀ account first second signature, env.validateMessage account first signature = false →
    env.validateMessage account second signature = false → first = second

-- The digest fixes the content up to the kind it is read as, and that is all a
-- signature is bound to: a twin passes every check its original passes.
theorem digest_identifies (a b : Block) :
    (a.hashables.hash = b.hashables.hash ↔ SameDigest a b) ∧
    (a.hashables.hash = b.hashables.hash → a.kind = b.kind → a.hashables = b.hashables) ∧
    ∀ env : Env,
      (SameDigest a b → ∀ account signature,
        env.validateMessage account (a.hash env) signature = env.validateMessage account (b.hash env) signature) ∧
      (Binding env → (a.hash env = b.hash env → a.hashables.hash = b.hashables.hash) → ∀ account signature,
        env.validateMessage account (a.hash env) signature = false →
        env.validateMessage account (b.hash env) signature = false → SameDigest a b) := by
  refine ⟨same_digest_iff a b, ?_, ?_⟩
  · intro same kind
    exact parts_same_kind _ _ ((hash_iff_parts _ _).mp same) kind
  · intro env
    constructor
    · intro same account signature
      have hash : a.hash env = b.hash env := congrArg env.blake2b ((same_digest_iff a b).mpr same)
      rw [hash]
    · intro binding collides account signature first second
      exact (same_digest_iff a b).mp (collides (binding _ _ _ _ first second))

def twinReceive : Block := ⟨.receiveBlock 5 7, 0, 0⟩

def twinChange : Block := ⟨.changeBlock 5 7, 0, 0⟩

def bindingEnv : Env where
  network := .test
  blake2b := fun bytes => BitVec.ofNat 256 (natBE bytes)
  blake2b64 := fun bytes => BitVec.ofNat 64 (natBE bytes)
  validateMessage := fun _ hash signature => decide (signature.toNat ≠ hash.toNat)
  micropyLoad := fun _ => some 0

theorem binding_env_binds : Binding bindingEnv := by
  intro account first second signature good again
  have one : signature.toNat = first.toNat := by simpa [bindingEnv] using good
  have other : signature.toNat = second.toNat := by simpa [bindingEnv] using again
  exact BitVec.eq_of_toNat_eq (one.symm.trans other)

theorem digest_identifies_twins :
    bindingEnv.validateMessage 0 (twinReceive.hash bindingEnv) ((twinReceive.hash bindingEnv).setWidth 512) = false ∧
    SameDigest twinReceive twinChange := by
  have good : bindingEnv.validateMessage 0 (twinReceive.hash bindingEnv) ((twinReceive.hash bindingEnv).setWidth 512) = false := by
    decide +kernel
  refine ⟨good, ?_⟩
  exact ((digest_identifies twinReceive twinChange).2.2 bindingEnv).2 binding_env_binds (fun _ => rfl) 0 _ good good

-- A receive block and a change block with one digest: whoever signs one has signed the other.
theorem digest_forgets_kind :
    twinReceive.hashables.hash = twinChange.hashables.hash ∧ twinReceive.kind ≠ twinChange.kind ∧
    ∀ (env : Env) (account : Account) (signature : Signature),
      env.validateMessage account (twinReceive.hash env) signature = env.validateMessage account (twinChange.hash env) signature :=
  ⟨rfl, Kind.noConfusion, fun _ _ _ => rfl⟩

end Rai
