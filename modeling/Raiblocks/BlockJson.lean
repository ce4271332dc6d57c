import Raiblocks.Numbers

set_option autoImplicit false

namespace Rai

open Kit

-- A property tree whose members are texts; no name used here contains a dot.
abbrev Ptree := List (String × Text)

namespace Ptree

def put : Ptree → String → Text → Ptree
  | [], name, text => [(name, text)]
  | member :: rest, name, text => if member.1 = name then (name, text) :: rest else member :: put rest name text

def get : Ptree → String → Option Text
  | [], _ => none
  | member :: rest, name => if member.1 = name then some member.2 else get rest name

@[simp] theorem get_put (tree : Ptree) (name other : String) (text : Text) :
    (tree.put name text).get other = if name = other then some text else tree.get other := by
  induction tree with
  | nil => rfl
  | cons member rest ih =>
      by_cases named : member.1 = name
      · by_cases same : name = other <;> simp [put, get, named, same]
      · by_cases same : member.1 = other
        · have different : name ≠ other := fun equal => named (same.trans equal.symm)
          rw [put, if_neg named, get, if_pos same, if_neg different, get, if_pos same]
        · simp [put, get, named, same, ih]

end Ptree

section Json

variable (texts : Texts)

def Block.serializeJson (block : Block) : Ptree :=
  match block.hashables with
  | .sendBlock previous destination balance =>
      (((((Ptree.put [] "type" "send".toList).put "previous" (UInt256Union.encodeHex texts previous)).put
        "destination" (encodeAccount texts destination)).put
        "balance" (UInt128Union.encodeHex texts balance)).put
        "work" (toStringHex block.work)).put "signature" (UInt512Union.encodeHex texts block.signature)
  | .sendBlockV2 previous destination action =>
      (((((Ptree.put [] "type" "send_v2".toList).put "previous" (UInt256Union.encodeHex texts previous)).put
        "destination" (encodeAccount texts destination)).put
        "action" (Action.encodeHex action)).put
        "work" (toStringHex block.work)).put "signature" (UInt512Union.encodeHex texts block.signature)
  | .openBlock source representative account =>
      (((((Ptree.put [] "type" "open".toList).put "source" (UInt256Union.encodeHex texts source)).put
        "representative" (encodeAccount texts representative)).put
        "account" (encodeAccount texts account)).put
        "work" (toStringHex block.work)).put "signature" (UInt512Union.encodeHex texts block.signature)
  | .changeBlock previous representative =>
      ((((Ptree.put [] "type" "change".toList).put "previous" (UInt256Union.encodeHex texts previous)).put
        "representative" (encodeAccount texts representative)).put
        "work" (toStringHex block.work)).put "signature" (UInt512Union.encodeHex texts block.signature)
  | .receiveBlock previous source =>
      ((((Ptree.put [] "type" "receive".toList).put "previous" (UInt256Union.encodeHex texts previous)).put
        "source" (UInt256Union.encodeHex texts source)).put
        "work" (toStringHex block.work)).put "signature" (UInt512Union.encodeHex texts block.signature)

-- A result of `none` is the error flag, which a thrown `runtime_error` also sets.
abbrev JsonReader := OptionT (Except Fault)

def Ptree.text (tree : Ptree) (name : String) : JsonReader Text := OptionT.mk (.ok (tree.get name))

def flagged {α : Type} (result : Option α) : JsonReader α := OptionT.mk (.ok result)

def sendHashables (tree : Ptree) : JsonReader Hashables := do
  let previousText ← tree.text "previous"
  let destinationText ← tree.text "destination"
  let balanceText ← tree.text "balance"
  let previous ← flagged (UInt256Union.decodeHex texts previousText)
  let destination ← OptionT.mk (decodeAccount texts destinationText)
  let balance ← flagged (UInt128Union.decodeHex texts balanceText)
  return .sendBlock previous destination balance

def sendHashablesV2 (tree : Ptree) : JsonReader Hashables := do
  let previousText ← tree.text "previous"
  let destinationText ← tree.text "destination"
  let actionText ← tree.text "action"
  let previous ← flagged (UInt256Union.decodeHex texts previousText)
  let destination ← OptionT.mk (decodeAccount texts destinationText)
  let action ← flagged (Action.decodeHex texts actionText)
  return .sendBlockV2 previous destination action

def openHashables (tree : Ptree) : JsonReader Hashables := do
  let sourceText ← tree.text "source"
  let representativeText ← tree.text "representative"
  let accountText ← tree.text "account"
  let source ← flagged (UInt256Union.decodeHex texts sourceText)
  let representative ← OptionT.mk (decodeAccount texts representativeText)
  let account ← OptionT.mk (decodeAccount texts accountText)
  return .openBlock source representative account

def changeHashables (tree : Ptree) : JsonReader Hashables := do
  let previousText ← tree.text "previous"
  let representativeText ← tree.text "representative"
  let previous ← flagged (UInt256Union.decodeHex texts previousText)
  let representative ← OptionT.mk (decodeAccount texts representativeText)
  return .changeBlock previous representative

def receiveHashables (tree : Ptree) : JsonReader Hashables := do
  let previousText ← tree.text "previous"
  let sourceText ← tree.text "source"
  let previous ← flagged (UInt256Union.decodeHex texts previousText)
  let source ← flagged (UInt256Union.decodeHex texts sourceText)
  return .receiveBlock previous source

-- The constructors of the send and receive blocks read the signature first, those of the other two the work.
def signatureThenWork (tree : Ptree) (hashables : Hashables) : JsonReader Block := do
  let signatureText ← tree.text "signature"
  let workText ← tree.text "work"
  let signature ← flagged (UInt512Union.decodeHex texts signatureText)
  let work ← flagged (fromStringHex texts workText)
  return ⟨hashables, signature, work⟩

def workThenSignature (tree : Ptree) (hashables : Hashables) : JsonReader Block := do
  let workText ← tree.text "work"
  let signatureText ← tree.text "signature"
  let work ← flagged (fromStringHex texts workText)
  let signature ← flagged (UInt512Union.decodeHex texts signatureText)
  return ⟨hashables, signature, work⟩

def deserializeBlockJson (tree : Ptree) : Except Fault (Option Block) := OptionT.run do
  let type ← tree.text "type"
  if type = "receive".toList then receiveHashables texts tree >>= signatureThenWork texts tree
  else if type = "send".toList then sendHashables texts tree >>= signatureThenWork texts tree
  else if type = "send_v2".toList then sendHashablesV2 texts tree >>= signatureThenWork texts tree
  else if type = "open".toList then openHashables texts tree >>= workThenSignature texts tree
  else if type = "change".toList then changeHashables texts tree >>= workThenSignature texts tree
  else flagged none

theorem text_found (tree : Ptree) {name : String} {text : Text} (found : tree.get name = some text) : tree.text name = pure text := by
  rw [Ptree.text, found]
  rfl

@[simp] theorem flagged_some {α : Type} (value : α) : flagged (some value) = pure value := rfl

@[simp] theorem account_parsed (account : Account) :
    (OptionT.mk (decodeAccount texts (encodeAccount texts account)) : JsonReader Account) = pure account := by
  rw [decode_encode_account]
  rfl

section Members

variable (tree : Ptree) {previous source : Hash} {destination representative account : Account} {balance : Amount} {action : Bytes}
  {signature : Signature} {work : Work} (hashables : Hashables)

theorem send_hashables_read (first : tree.get "previous" = some (UInt256Union.encodeHex texts previous))
    (second : tree.get "destination" = some (encodeAccount texts destination))
    (third : tree.get "balance" = some (UInt128Union.encodeHex texts balance)) :
    sendHashables texts tree = pure (.sendBlock previous destination balance) := by
  simp [sendHashables, text_found tree first, text_found tree second, text_found tree third]

theorem send_hashables_v2_read (first : tree.get "previous" = some (UInt256Union.encodeHex texts previous))
    (second : tree.get "destination" = some (encodeAccount texts destination))
    (third : tree.get "action" = some (Action.encodeHex action)) :
    sendHashablesV2 texts tree = pure (.sendBlockV2 previous destination action) := by
  simp [sendHashablesV2, text_found tree first, text_found tree second, text_found tree third]

theorem open_hashables_read (first : tree.get "source" = some (UInt256Union.encodeHex texts source))
    (second : tree.get "representative" = some (encodeAccount texts representative))
    (third : tree.get "account" = some (encodeAccount texts account)) :
    openHashables texts tree = pure (.openBlock source representative account) := by
  simp [openHashables, text_found tree first, text_found tree second, text_found tree third]

theorem change_hashables_read (first : tree.get "previous" = some (UInt256Union.encodeHex texts previous))
    (second : tree.get "representative" = some (encodeAccount texts representative)) :
    changeHashables texts tree = pure (.changeBlock previous representative) := by
  simp [changeHashables, text_found tree first, text_found tree second]

theorem receive_hashables_read (first : tree.get "previous" = some (UInt256Union.encodeHex texts previous))
    (second : tree.get "source" = some (UInt256Union.encodeHex texts source)) :
    receiveHashables texts tree = pure (.receiveBlock previous source) := by
  simp [receiveHashables, text_found tree first, text_found tree second]

theorem signature_then_work_read (first : tree.get "signature" = some (UInt512Union.encodeHex texts signature))
    (second : tree.get "work" = some (toStringHex work)) :
    signatureThenWork texts tree hashables = pure ⟨hashables, signature, work⟩ := by
  simp [signatureThenWork, text_found tree first, text_found tree second]

theorem work_then_signature_read (first : tree.get "work" = some (toStringHex work))
    (second : tree.get "signature" = some (UInt512Union.encodeHex texts signature)) :
    workThenSignature texts tree hashables = pure ⟨hashables, signature, work⟩ := by
  simp [workThenSignature, text_found tree first, text_found tree second]

end Members

-- Every name is put once, so each reader finds the text that was written under it.
theorem json_round_trip (block : Block) : deserializeBlockJson texts (block.serializeJson texts) = .ok (some block) := by
  rcases block with ⟨hashables, signature, work⟩
  generalize written : Block.serializeJson texts ⟨hashables, signature, work⟩ = tree
  have signed : tree.get "signature" = some (UInt512Union.encodeHex texts signature) := by
    cases hashables <;> simp [← written, Block.serializeJson]
  have worked : tree.get "work" = some (toStringHex work) := by
    cases hashables <;> simp [← written, Block.serializeJson]
  have last (parsed : Hashables) := signature_then_work_read texts tree parsed signed worked
  have lastOpen (parsed : Hashables) := work_then_signature_read texts tree parsed worked signed
  cases hashables with
  | sendBlock previous destination balance =>
      have typed : tree.text "type" = pure "send".toList := text_found tree (by simp [← written, Block.serializeJson])
      have read : sendHashables texts tree = pure (.sendBlock previous destination balance) := by
        apply send_hashables_read <;> simp [← written, Block.serializeJson]
      rw [deserializeBlockJson, typed, pure_bind, if_neg (by decide), if_pos rfl, read, pure_bind, last]
      rfl
  | receiveBlock previous source =>
      have typed : tree.text "type" = pure "receive".toList := text_found tree (by simp [← written, Block.serializeJson])
      have read : receiveHashables texts tree = pure (.receiveBlock previous source) := by
        apply receive_hashables_read <;> simp [← written, Block.serializeJson]
      rw [deserializeBlockJson, typed, pure_bind, if_pos rfl, read, pure_bind, last]
      rfl
  | openBlock source representative account =>
      have typed : tree.text "type" = pure "open".toList := text_found tree (by simp [← written, Block.serializeJson])
      have read : openHashables texts tree = pure (.openBlock source representative account) := by
        apply open_hashables_read <;> simp [← written, Block.serializeJson]
      rw [deserializeBlockJson, typed, pure_bind, if_neg (by decide), if_neg (by decide), if_neg (by decide), if_pos rfl, read,
        pure_bind, lastOpen]
      rfl
  | changeBlock previous representative =>
      have typed : tree.text "type" = pure "change".toList := text_found tree (by simp [← written, Block.serializeJson])
      have read : changeHashables texts tree = pure (.changeBlock previous representative) := by
        apply change_hashables_read <;> simp [← written, Block.serializeJson]
      rw [deserializeBlockJson, typed, pure_bind, if_neg (by decide), if_neg (by decide), if_neg (by decide), if_neg (by decide),
        if_pos rfl, read, pure_bind, lastOpen]
      rfl
  | sendBlockV2 previous destination action =>
      have typed : tree.text "type" = pure "send_v2".toList := text_found tree (by simp [← written, Block.serializeJson])
      have read : sendHashablesV2 texts tree = pure (.sendBlockV2 previous destination action) := by
        apply send_hashables_v2_read <;> simp [← written, Block.serializeJson]
      rw [deserializeBlockJson, typed, pure_bind, if_neg (by decide), if_neg (by decide), if_pos rfl, read, pure_bind, last]
      rfl

section Actions

theorem lower_digits : (∀ k < 10, Nat.digitChar (k + 0) = (Char.ofNat (k + 48)).toLower) ∧
    (∀ k < 6, Nat.digitChar (k + 10) = (Char.ofNat (k + 97)).toLower) ∧
    ∀ k < 6, Nat.digitChar (k + 10) = (Char.ofNat (k + 65)).toLower := by
  decide

theorem lower_digit {count start offset : Nat} (digits : ∀ k < count, Nat.digitChar (k + offset) = (Char.ofNat (k + start)).toLower)
    (character : Char) (least : start ≤ character.toNat) (most : character.toNat < start + count) :
    Nat.digitChar (character.toNat - start + offset) = character.toLower := by
  have lower := digits (character.toNat - start) (by omega)
  rwa [Nat.sub_add_cancel least, Char.ofNat_toNat] at lower

theorem hex_digit_char (character : Char) (digit : Nat) (known : Radix.hex.value character = some digit) :
    digit < 16 ∧ Nat.digitChar digit = character.toLower := by
  obtain ⟨decimal, small, capital⟩ := lower_digits
  unfold Radix.value at known
  split at known
  case isTrue range =>
    obtain ⟨least, most⟩ : 48 ≤ character.toNat ∧ character.toNat ≤ 57 := range
    obtain rfl : character.toNat - 48 = digit := Option.some.inj known
    exact ⟨by omega, lower_digit decimal character least (by omega)⟩
  split at known
  case isTrue range =>
    obtain ⟨least, most⟩ : 97 ≤ character.toNat ∧ character.toNat ≤ 102 := range.2
    obtain rfl : character.toNat - 97 + 10 = digit := Option.some.inj known
    exact ⟨by omega, lower_digit small character least (by omega)⟩
  split at known
  case isTrue range =>
    obtain ⟨least, most⟩ : 65 ≤ character.toNat ∧ character.toNat ≤ 70 := range.2
    obtain rfl : character.toNat - 65 + 10 = digit := Option.some.inj known
    exact ⟨by omega, lower_digit capital character least (by omega)⟩
  case isFalse => cases known

theorem byte_text (high low : Nat) (small : high < 16) (small' : low < 16) :
    formatted false .hex 2 (16 * high + low) = [Nat.digitChar high, Nat.digitChar low] := by
  have text := padded_low_digits (digitChar false) (base_large .hex) 2 (16 * high + low) (by decide)
    (show 16 * high + low < 16 ^ 2 by omega)
  have first : (16 * high + low) % 16 = low := by omega
  have second : (16 * high + low) / 16 % 16 = high := by omega
  have digits : lowDigits Radix.hex.base 2 (16 * high + low) = [low, high] := by
    rw [Radix.base, lowDigits, lowDigits, lowDigits, first, second]
  rw [formatted, text, digits]
  rfl

-- Two digits are a byte; anything else is read as the stream extracts it, and no failure is looked at.
theorem pair_kept (first second : Char) (high low : Nat) (known : Radix.hex.value first = some high)
    (known' : Radix.hex.value second = some low) :
    formatted false .hex 2 (UInt8.ofNat (texts.extract .hex 32 [first, second]).1).toNat = [first.toLower, second.toLower] := by
  obtain ⟨small, char⟩ := hex_digit_char first high known
  obtain ⟨small', char'⟩ := hex_digit_char second low known'
  have read : Radix.hex.read [first, second] = some (16 * high + low) := by
    simp [Radix.read, reading, known, known', Radix.base, Nat.ofDigits, Nat.add_comm]
  have byte : 16 * high + low < 256 := by omega
  rw [texts.extract_digits .hex 32 _ _ read (List.cons_ne_nil _ _) (byte.trans (by decide)), UInt8.toNat_ofNat_of_lt' byte,
    byte_text high low small small', char, char']

theorem pairs_kept (count : Nat) (text : Text) (even : text.length = 2 * count)
    (digits : ∀ character ∈ text, (Radix.hex.value character).isSome) :
    Action.encodeHex (Action.decodePairs texts text) = text.map Char.toLower := by
  induction count generalizing text with
  | zero =>
      obtain rfl := List.length_eq_zero_iff.mp even
      rfl
  | succ count ih =>
      obtain ⟨first, rest, rfl⟩ := List.exists_cons_of_length_eq_add_one even
      obtain ⟨second, rest, rfl⟩ := List.exists_cons_of_length_eq_add_one (Nat.succ.inj even)
      obtain ⟨here, others⟩ := List.forall_mem_cons.mp digits
      obtain ⟨next, others⟩ := List.forall_mem_cons.mp others
      obtain ⟨high, known⟩ := Option.isSome_iff_exists.mp here
      obtain ⟨low, known'⟩ := Option.isSome_iff_exists.mp next
      have pair := pair_kept texts first second high low known known'
      have rest_kept := ih rest (by simpa [Nat.mul_succ] using even) others
      rw [Action.encodeHex] at rest_kept ⊢
      rw [Action.decodePairs, List.flatMap_cons, pair, rest_kept]
      rfl

theorem reader_bound {α β : Type} (first : JsonReader α) (next : α → JsonReader β) (result : β)
    (read : (first >>= next).run = .ok (some result)) :
    ∃ value, first.run = .ok (some value) ∧ (next value).run = .ok (some result) := by
  rw [OptionT.run_bind] at read
  obtain ⟨out, returned, rest⟩ := bind_returned read
  cases out with
  | none => cases rest
  | some value => exact ⟨value, returned, rest⟩

variable (tree : Ptree) (text : Text) (block : Block) (typed : tree.get "type" = some "send_v2".toList)
  (acts : tree.get "action" = some text) (accepted : deserializeBlockJson texts tree = .ok (some block))
include typed acts accepted

theorem accepted_action : ∃ previous destination action, block.hashables = .sendBlockV2 previous destination action ∧
    Action.decodeHex texts text = some action := by
  rw [deserializeBlockJson, text_found tree typed, pure_bind, if_neg (by decide), if_neg (by decide), if_pos rfl] at accepted
  obtain ⟨hashables, parsed, rest⟩ := reader_bound _ _ _ accepted
  have kept : block.hashables = hashables := by
    obtain ⟨_, _, rest⟩ := reader_bound _ _ _ rest
    obtain ⟨_, _, rest⟩ := reader_bound _ _ _ rest
    obtain ⟨signature, _, rest⟩ := reader_bound _ _ _ rest
    obtain ⟨work, _, rest⟩ := reader_bound _ _ _ rest
    exact (congrArg Block.hashables (Option.some.inj (Except.ok.inj rest))).symm
  obtain ⟨_, _, parsed⟩ := reader_bound _ _ _ parsed
  obtain ⟨_, _, parsed⟩ := reader_bound _ _ _ parsed
  rw [text_found tree acts, pure_bind] at parsed
  obtain ⟨previous, _, parsed⟩ := reader_bound _ _ _ parsed
  obtain ⟨destination, _, parsed⟩ := reader_bound _ _ _ parsed
  obtain ⟨action, decoded, parsed⟩ := reader_bound _ _ _ parsed
  exact ⟨previous, destination, action, kept.trans (Option.some.inj (Except.ok.inj parsed)).symm, Except.ok.inj decoded⟩

theorem action_text_kept_iff :
    (text.length % 2 = 0 ∧ (∀ character ∈ text, (Radix.hex.value character).isSome) ∧
      ∃ previous destination action, block.hashables = .sendBlockV2 previous destination action ∧
        Action.encodeHex action = text.map Char.toLower) ↔
    ∀ character ∈ text, (Radix.hex.value character).isSome := by
  constructor
  · exact fun kept => kept.2.1
  · intro digits
    obtain ⟨previous, destination, action, fields, decoded⟩ := accepted_action texts tree text block typed acts accepted
    rw [Action.decodeHex] at decoded
    split at decoded
    case isTrue => cases decoded
    case isFalse even =>
      have even := not_not.mp even
      obtain rfl := Option.some.inj decoded
      have kept := pairs_kept texts (text.length / 2) text (by omega) digits
      exact ⟨even, digits, previous, destination, _, fields, kept⟩

end Actions

end Json

def mixedCase : Ptree := (Block.serializeJson zeroTexts ⟨.sendBlockV2 1 2 [], 3, 4⟩).put "action" "0aFf".toList

theorem action_text_kept_sample : deserializeBlockJson zeroTexts mixedCase = .ok (some ⟨.sendBlockV2 1 2 [10, 255], 3, 4⟩) ∧
    Action.encodeHex [10, 255] = "0aff".toList := by
  have accepted : deserializeBlockJson zeroTexts mixedCase = .ok (some ⟨.sendBlockV2 1 2 [10, 255], 3, 4⟩) := by decide +kernel
  have digits : "0aFf".toList.all (fun character => (Radix.hex.value character).isSome) = true := by decide +kernel
  obtain ⟨_, _, _, _, _, same, kept⟩ :=
    (action_text_kept_iff zeroTexts mixedCase "0aFf".toList _ (by decide +kernel) (by decide +kernel) accepted).mpr
    (List.all_eq_true.mp digits)
  obtain ⟨rfl, rfl, rfl⟩ := Hashables.sendBlockV2.inj same
  exact ⟨accepted, kept.trans (by decide +kernel)⟩

def noHex : Ptree := (Block.serializeJson zeroTexts ⟨.sendBlockV2 1 2 [], 3, 4⟩).put "action" "zz".toList

theorem action_text_altered : deserializeBlockJson zeroTexts noHex = .ok (some ⟨.sendBlockV2 1 2 [0], 3, 4⟩) ∧
    noHex.get "action" = some "zz".toList ∧ Action.encodeHex [0] = "00".toList := by
  decide +kernel

end Rai
