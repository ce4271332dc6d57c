import Raiblocks.Block
import Raiblocks.Kit.Digits
import Raiblocks.Kit.Fuel

set_option autoImplicit false

namespace Rai

open Kit

inductive Radix where
  | dec
  | hex
deriving DecidableEq, Repr

def Radix.base : Radix → Nat
  | .dec => 10
  | .hex => 16

def digitChar (upper : Bool) (digit : Nat) : Char :=
  if upper then (Nat.digitChar digit).toUpper else Nat.digitChar digit

def Radix.value (radix : Radix) (character : Char) : Option Nat :=
  if '0' ≤ character ∧ character ≤ '9' then some (character.toNat - '0'.toNat)
  else if radix = .hex ∧ 'a' ≤ character ∧ character ≤ 'f' then some (character.toNat - 'a'.toNat + 10)
  else if radix = .hex ∧ 'A' ≤ character ∧ character ≤ 'F' then some (character.toNat - 'A'.toNat + 10)
  else none

theorem digit_value (upper : Bool) (radix : Radix) : ∀ digit < radix.base, radix.value (digitChar upper digit) = some digit := by
  cases radix <;> cases upper <;> decide

theorem base_large (radix : Radix) : 1 < radix.base := by
  cases radix <;> decide

def formatted (upper : Bool) (radix : Radix) (width number : Nat) : Text := padded (digitChar upper) radix.base width number

def Radix.read (radix : Radix) (text : Text) : Option Nat := reading radix.value radix.base text

-- Boost takes a decimal text that starts with a zero for an octal one.
def Radix.plain (radix : Radix) (text : Text) : Prop := radix = .dec → text.head? = some '0' → text = ['0']

-- What the code takes from the standard streams and from boost. `extract` is the extraction of an unsigned integer of a
-- given number of bits, with the flag `eof`; the one of boost throws on some texts. What they do is fixed only on the texts
-- of numbers. `check` and `checkV1` are the digests of an account number in its texts.
structure Texts where
  upper : Bool
  extract : Radix → Nat → Text → Nat × Bool
  extractWide : Radix → Nat → Text → Option (Nat × Bool)
  check : Account → BitVec 40
  checkV1 : Account → BitVec 32
  extract_digits : ∀ radix bits text number, radix.read text = some number → text ≠ [] → number < 2 ^ bits →
    extract radix bits text = (number, true)
  extract_wide_digits : ∀ radix bits text number, radix.read text = some number → text ≠ [] → number < 2 ^ bits → radix.plain text →
    extractWide radix bits text = some (number, true)

def plainTexts (check : Account → BitVec 40) (checkV1 : Account → BitVec 32) : Texts where
  upper := true
  extract := fun radix bits text => ((radix.read text).getD 0 % 2 ^ bits, (radix.read text).isSome)
  extractWide := fun radix bits text => (radix.read text).map fun number => (number % 2 ^ bits, true)
  check := check
  checkV1 := checkV1
  extract_digits := by
    intro radix bits text number read _ small
    simp [read, Nat.mod_eq_of_lt small]
  extract_wide_digits := by
    intro radix bits text number read _ small _
    simp [read, Nat.mod_eq_of_lt small]

def zeroTexts : Texts := plainTexts (fun _ => 0) fun _ => 0

section Numbers

variable (texts : Texts)

def extractAll (radix : Radix) (bits : Nat) (text : Text) : Option (BitVec bits) :=
  match texts.extractWide radix bits text with
  | some (number, true) => some (BitVec.ofNat bits number)
  | _ => none

def UInt128Union.encodeHex (number : BitVec 128) : Text := formatted texts.upper .hex 32 number.toNat

def UInt128Union.decodeHex (text : Text) : Option (BitVec 128) :=
  if text.length > 32 then none else extractAll texts .hex 128 text

def UInt128Union.encodeDec (number : BitVec 128) : Text := formatted texts.upper .dec 0 number.toNat

-- The error flag and the number afterwards: a text with a rest is an error and sets the number all the same.
def decodeDec (bits limit : Nat) (number : BitVec bits) (text : Text) : Bool × BitVec bits :=
  if text.length > limit ∨ (text.length > 1 ∧ text.head? = some '0') ∨ text.head? = some '-' then (true, number)
  else
    match texts.extractWide .dec bits text with
    | some (value, eof) => (!eof, BitVec.ofNat bits value)
    | none => (true, number)

def UInt128Union.decodeDec (number : BitVec 128) (text : Text) : Bool × BitVec 128 := Rai.decodeDec texts 128 39 number text

def UInt256Union.encodeHex (number : BitVec 256) : Text := formatted texts.upper .hex 64 number.toNat

def UInt256Union.decodeHex (text : Text) : Option (BitVec 256) :=
  if text ≠ [] ∧ text.length ≤ 64 then extractAll texts .hex 256 text else none

def UInt512Union.encodeHex (number : BitVec 512) : Text := formatted texts.upper .hex 128 number.toNat

def UInt512Union.decodeHex (text : Text) : Option (BitVec 512) :=
  if text.length > 128 then none else extractAll texts .hex 512 text

def toStringHex (value : BitVec 64) : Text := formatted false .hex 16 value.toNat

def fromStringHexInto (target : BitVec 64) (text : Text) : Bool × BitVec 64 :=
  if text = [] ∨ text.length > 16 then (true, target)
  else
    match texts.extract .hex 64 text with
    | (number, eof) => (!eof, BitVec.ofNat 64 number)

-- For a caller that uses the value only where the error flag is clear.
def unflagged {α : Type} (out : Bool × α) : Option α := if out.1 then none else some out.2

def fromStringHex (text : Text) : Option (BitVec 64) := unflagged (fromStringHexInto texts 0 text)

def Action.encodeHex (bytes : Bytes) : Text := bytes.flatMap fun byte => formatted false .hex 2 byte.toNat

def Action.decodePairs : Text → Bytes
  | first :: second :: rest => UInt8.ofNat (texts.extract .hex 32 [first, second]).1 :: Action.decodePairs rest
  | _ => []

def Action.decodeHex (text : Text) : Option Bytes :=
  if text.length % 2 ≠ 0 then none else some (Action.decodePairs texts text)

theorem formatted_read (upper : Bool) (radix : Radix) (width number : Nat) :
    radix.read (formatted upper radix width number) = some number :=
  reading_padded (digitChar upper) (base_large radix) (digit_value upper radix) width number

theorem formatted_plain (upper : Bool) (number : Nat) : formatted upper .dec 0 number = numeral (digitChar upper) 10 number := by
  simp [formatted, padded, Radix.base]

theorem formatted_length (upper : Bool) (width number : Nat) (positive : 0 < width) (small : number < 16 ^ width) :
    (formatted upper .hex width number).length = width :=
  padded_length (digitChar upper) (base_large .hex) width number positive small

theorem formatted_ne_nil (upper : Bool) (radix : Radix) (width number : Nat) : formatted upper radix width number ≠ [] :=
  padded_ne_nil (digitChar upper) width number

theorem hex_length {bits : Nat} (upper : Bool) (width : Nat) (number : BitVec bits) (positive : 0 < width) (same : bits = 4 * width) :
    (formatted upper .hex width number.toNat).length = width := by
  apply formatted_length upper width number.toNat positive
  rw [show (16 : Nat) = 2 ^ 4 from rfl, ← Nat.pow_mul, ← same]
  exact number.isLt

theorem extract_all_formatted {bits : Nat} (radix : Radix) (width : Nat) (number : BitVec bits)
    (plain : radix.plain (formatted texts.upper radix width number.toNat)) :
    extractAll texts radix bits (formatted texts.upper radix width number.toNat) = some number := by
  have read := texts.extract_wide_digits radix bits _ _ (formatted_read texts.upper radix width number.toNat)
    (formatted_ne_nil texts.upper radix width number.toNat) number.isLt plain
  simp [extractAll, read]

theorem hex_plain (text : Text) : Radix.hex.plain text := by
  intro decimal
  cases decimal

@[simp] theorem decode_hex_128 (number : BitVec 128) :
    UInt128Union.decodeHex texts (UInt128Union.encodeHex texts number) = some number := by
  have length := hex_length texts.upper 32 number (by decide) rfl
  have read := extract_all_formatted texts .hex 32 number (hex_plain _)
  simp [UInt128Union.decodeHex, UInt128Union.encodeHex, length, read]

@[simp] theorem decode_hex_256 (number : BitVec 256) :
    UInt256Union.decodeHex texts (UInt256Union.encodeHex texts number) = some number := by
  have length := hex_length texts.upper 64 number (by decide) rfl
  have read := extract_all_formatted texts .hex 64 number (hex_plain _)
  have filled := formatted_ne_nil texts.upper .hex 64 number.toNat
  simp [UInt256Union.decodeHex, UInt256Union.encodeHex, length, read, filled]

@[simp] theorem decode_hex_512 (number : BitVec 512) :
    UInt512Union.decodeHex texts (UInt512Union.encodeHex texts number) = some number := by
  have length := hex_length texts.upper 128 number (by decide) rfl
  have read := extract_all_formatted texts .hex 128 number (hex_plain _)
  simp [UInt512Union.decodeHex, UInt512Union.encodeHex, length, read]

@[simp] theorem from_string_hex (value : BitVec 64) : fromStringHex texts (toStringHex value) = some value := by
  have length := hex_length false 16 value (by decide) rfl
  have filled := formatted_ne_nil false .hex 16 value.toNat
  have read := texts.extract_digits .hex 64 _ _ (formatted_read false .hex 16 value.toNat) filled value.isLt
  simp [fromStringHex, fromStringHexInto, unflagged, toStringHex, length, read, filled]

theorem byte_pair (byte : UInt8) : ∃ first second, formatted false .hex 2 byte.toNat = [first, second] :=
  List.length_eq_two.mp (formatted_length false 2 byte.toNat (by decide) byte.toNat_lt)

theorem action_length (bytes : Bytes) : (Action.encodeHex bytes).length % 2 = 0 := by
  induction bytes with
  | nil => rfl
  | cons byte bytes ih =>
      obtain ⟨first, second, pair⟩ := byte_pair byte
      have split : Action.encodeHex (byte :: bytes) = [first, second] ++ Action.encodeHex bytes := by
        simp [Action.encodeHex, pair]
      rw [split, List.length_append, List.length_cons, List.length_singleton]
      omega

theorem action_pairs (bytes : Bytes) : Action.decodePairs texts (Action.encodeHex bytes) = bytes := by
  induction bytes with
  | nil => rfl
  | cons byte bytes ih =>
      obtain ⟨first, second, pair⟩ := byte_pair byte
      have small : byte.toNat < 2 ^ 32 := byte.toNat_lt.trans (by decide)
      have read := texts.extract_digits .hex 32 _ _ (formatted_read false .hex 2 byte.toNat) (formatted_ne_nil _ _ _ _) small
      rw [pair] at read
      have split : Action.encodeHex (byte :: bytes) = first :: second :: Action.encodeHex bytes := by
        simp [Action.encodeHex, pair]
      rw [split, Action.decodePairs, ih, read, UInt8.ofNat_toNat]

@[simp] theorem decode_hex_action (bytes : Bytes) : Action.decodeHex texts (Action.encodeHex bytes) = some bytes := by
  simp [Action.decodeHex, action_length, action_pairs]

end Numbers

-- The tables of `numbers.cpp`; the older one ends in the terminator of its string.
def accountLookup : Text := "13456789abcdefghijkmnopqrstuwxyz".toList

def accountReverse : Text := "~0~1234567~~~~~~~~~~~~~~~~~~~~~~~~~~~~~~~~~~~~~~~89:;<=>?@AB~CDEFGHIJK~LMNO~~~~~".toList

def base58Reverse : Text := "~012345678~~~~~~~9:;<=>?@~ABCDE~FGHIJKLMNOP~~~~~~QRSTUVWXYZ[~\\]^_`abcdefghi".toList ++ ['\x00']

-- The caller has masked the value to five bits, which is what `account_encode` asserts.
def accountEncode (value : Nat) : Char := accountLookup.getD value '\x00'

-- Both decoders: a byte of the table less `0x30`. An index past the terminator is undefined behaviour.
def reverseDecode (table : Text) (value : Char) : Except Fault Nat := do
  ensure ('0' ≤ value)
  ensure (value ≤ '~')
  let entry ← require table[value.toNat - 0x30]?
  .ok ((entry.toNat + 0xd0) % 256)

def accountDecode (value : Char) : Except Fault Nat := reverseDecode accountReverse value

def base58Decode (value : Char) : Except Fault Nat := reverseDecode base58Reverse value

-- A `uint512_t` has 64 bytes.
def wideBound : Nat := 256 ^ 64

-- The loop of both account decoders; `none` is their error flag. A character outside the alphabet
-- decodes to `'~' - 0x30`, so the comparison with `'~'` does not refuse it.
def decodeDigits (decode : Char → Except Fault Nat) (base : Nat) : Text → Nat → Except Fault (Option Nat)
  | [], number => .ok (some number)
  | character :: rest, number =>
      if character.toNat < 0x30 ∨ 0x80 ≤ character.toNat then .ok none
      else do
        let byte ← decode character
        if byte = '~'.toNat then .ok none else decodeDigits decode base rest ((number * base + byte) % wideBound)

section Accounts

variable (texts : Texts)

def encodeAccount (account : Account) : Text :=
  let number := account.toNat <<< 40 ||| (texts.check account).toNat
  ((lowDigits 32 60 number).map accountEncode ++ "_brx".toList).reverse

-- The error flag and the account afterwards, which is set before its check.
def decodeAccountV1Into (account : Account) (source : Text) : Except Fault (Bool × Account) := do
  if source.length ≠ 50 then .ok (true, account)
  else
    match ← decodeDigits base58Decode 58 source 0 with
    | none => .ok (true, account)
    | some number =>
        let decoded : Account := BitVec.ofNat 256 number
        .ok (number >>> (256 + 32) ≠ 13 || BitVec.ofNat 32 (number >>> 256) ≠ texts.checkV1 decoded, decoded)

def decodeAccountInto (account : Account) (source : Text) : Except Fault (Bool × Account) := do
  if source.length ≠ 64 then decodeAccountV1Into texts account source
  else if source.take 3 = "xrb".toList ∧ (source[3]? = some '_' ∨ source[3]? = some '-') then
    match ← decodeDigits accountDecode 32 (source.drop 4) 0 with
    | none => .ok (true, account)
    | some number =>
        let decoded : Account := BitVec.ofNat 256 (number >>> 40)
        .ok (BitVec.ofNat 40 number ≠ texts.check decoded, decoded)
  else .ok (true, account)

def decodeAccount (source : Text) : Except Fault (Option Account) := (decodeAccountInto texts 0 source).map unflagged

theorem decode_account_v1_start (start other : Account) (source : Text) :
    (decodeAccountV1Into texts start source).map unflagged = (decodeAccountV1Into texts other source).map unflagged := by
  unfold decodeAccountV1Into
  split
  · rfl
  · rcases decodeDigits base58Decode 58 source 0 with fault | _ | number <;> rfl

theorem decode_account_into (start : Account) (source : Text) :
    decodeAccount texts source = (decodeAccountInto texts start source).map unflagged := by
  unfold decodeAccount decodeAccountInto
  split
  · exact decode_account_v1_start texts 0 start source
  · split
    · rcases decodeDigits accountDecode 32 (source.drop 4) 0 with fault | _ | number <;> rfl
    · rfl

theorem account_digit : ∀ digit < 32, ¬((accountEncode digit).toNat < 0x30 ∨ 0x80 ≤ (accountEncode digit).toNat) ∧
    accountDecode (accountEncode digit) = .ok digit := by
  decide

theorem decode_digits_account (digits : List Nat) (number : Nat) (below : ∀ digit ∈ digits, digit < 32) :
    decodeDigits accountDecode 32 (digits.map accountEncode) number =
      .ok (some (digits.foldl (fun number digit => (number * 32 + digit) % wideBound) number)) := by
  induction digits generalizing number with
  | nil => rfl
  | cons digit digits ih =>
      have small := below digit List.mem_cons_self
      have known := account_digit digit small
      have rest := ih ((number * 32 + digit) % wideBound) fun other member => below other (List.mem_cons_of_mem digit member)
      have tilde : digit ≠ '~'.toNat := by
        intro same
        rw [same] at small
        exact absurd small (by decide)
      rw [List.map_cons, decodeDigits, if_neg known.1, known.2]
      simp only [bind, Except.bind, if_neg tilde, rest, List.foldl_cons]

theorem account_number (account : Account) (check : BitVec 40) :
    (account.toNat <<< 40 ||| check.toNat) >>> 40 = account.toNat ∧ (account.toNat <<< 40 ||| check.toNat) % 2 ^ 40 = check.toNat ∧
      account.toNat <<< 40 ||| check.toNat < 32 ^ 60 := by
  have account_small := account.isLt
  have check_small := check.isLt
  rw [← Nat.shiftLeft_add_eq_or_of_lt check_small, Nat.shiftLeft_eq, Nat.shiftRight_eq_div_pow]
  refine ⟨by omega, by omega, ?_⟩
  have large : (2 : Nat) ^ 256 * 2 ^ 40 ≤ 32 ^ 60 := by decide
  omega

theorem sixty_digits : 32 ^ 60 ≤ wideBound :=
  calc 32 ^ 60 ≤ 256 ^ 60 := Nat.pow_le_pow_left (by decide) 60
    _ ≤ 256 ^ 64 := Nat.pow_le_pow_right (by decide) (by decide)

theorem account_text_length (account : Account) : (encodeAccount texts account).length = 64 := by
  simp [encodeAccount]

def accountText (mark : Char) (digits : List Nat) : Text := 'x' :: 'r' :: 'b' :: mark :: digits.map accountEncode

def accountDigits (account : Account) : List Nat := (lowDigits 32 60 (account.toNat <<< 40 ||| (texts.check account).toNat)).reverse

theorem encode_account_text (account : Account) : encodeAccount texts account = accountText '_' (accountDigits texts account) := by
  simp [encodeAccount, accountText, accountDigits]

theorem account_digits_below (account : Account) : ∀ digit ∈ accountDigits texts account, digit < 32 := fun digit member =>
  low_digits_below 32 60 _ (by decide) digit (List.mem_reverse.mp member)

theorem account_digits_length (account : Account) : (accountDigits texts account).length = 60 := by
  simp [accountDigits]

theorem of_account_digits (account : Account) :
    Nat.ofDigits 32 (accountDigits texts account).reverse = account.toNat <<< 40 ||| (texts.check account).toNat := by
  rw [accountDigits, List.reverse_reverse, of_low_digits, Nat.mod_eq_of_lt (account_number account (texts.check account)).2.2]

theorem decode_account_text (mark : Char) (known : mark = '_' ∨ mark = '-') (digits : List Nat) (length : digits.length = 60)
    (below : ∀ digit ∈ digits, digit < 32) (number : Nat) (worth : Nat.ofDigits 32 digits.reverse = number) :
    decodeAccount texts (accountText mark digits) =
      .ok (if BitVec.ofNat 40 number ≠ texts.check (BitVec.ofNat 256 (number >>> 40)) then none
        else some (BitVec.ofNat 256 (number >>> 40))) := by
  have fits : number < wideBound := by
    have bound := of_digits_reverse_lt (show 1 < 32 by decide) digits below
    rw [length, worth] at bound
    exact bound.trans_le sixty_digits
  have folded : digits.foldl (fun n d => (n * 32 + d) % wideBound) 0 = number := by
    have wrapped := digits_wrapped 32 wideBound digits 0
    rwa [digits_folded, worth, Nat.mod_eq_of_lt fits, Nat.zero_mod] at wrapped
  have read := decode_digits_account digits 0 below
  rw [folded] at read
  have whole : (accountText mark digits).length = 64 := by simp [accountText, length]
  have marked : (accountText mark digits).take 3 = "xrb".toList ∧
    ((accountText mark digits)[3]? = some '_' ∨ (accountText mark digits)[3]? = some '-') :=
    ⟨rfl, known.imp (congrArg some) (congrArg some)⟩
  rw [decodeAccount, decodeAccountInto, if_neg (not_not.mpr whole), if_pos marked,
    show (accountText mark digits).drop 4 = digits.map accountEncode from rfl, read]
  simp only [bind_ok, Except.map, unflagged, decide_eq_true_eq]

theorem decode_spelled_account (mark : Char) (known : mark = '_' ∨ mark = '-') (account : Account) :
    decodeAccount texts (accountText mark (accountDigits texts account)) = .ok (some account) := by
  obtain ⟨high, low, _⟩ := account_number account (texts.check account)
  have whole : BitVec.ofNat 256 ((account.toNat <<< 40 ||| (texts.check account).toNat) >>> 40) = account := by
    rw [high, BitVec.ofNat_toNat, BitVec.setWidth_eq]
  have checked : BitVec.ofNat 40 (account.toNat <<< 40 ||| (texts.check account).toNat) = texts.check account := by
    apply BitVec.eq_of_toNat_eq
    rw [BitVec.toNat_ofNat, low]
  rw [decode_account_text texts mark known _ (account_digits_length texts account) (account_digits_below texts account) _
    (of_account_digits texts account), whole, checked, if_neg (not_not.mpr rfl)]

theorem decode_encode_account (account : Account) : decodeAccount texts (encodeAccount texts account) = .ok (some account) := by
  rw [encode_account_text]
  exact decode_spelled_account texts '_' (Or.inl rfl) account

end Accounts

end Rai
