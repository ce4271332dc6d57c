import Raiblocks.BlockJson

set_option autoImplicit false

namespace Rai

open Kit

def UInt256Union.decodeDec (texts : Texts) (number : BitVec 256) (text : Text) : Bool × BitVec 256 :=
  Rai.decodeDec texts 256 78 number text

theorem decode_dec_128 (texts : Texts) : UInt128Union.decodeDec texts = decodeDec texts 128 39 := rfl

-- The integers of boost are unchecked: a number that is too large is reduced.
def Texts.Unchecked (texts : Texts) : Prop := ∀ bits text number, Radix.dec.read text = some number → text ≠ [] → Radix.dec.plain text →
  texts.extractWide .dec bits text = some (number % 2 ^ bits, true)

def LeadingZero (text : Text) : Prop := text.length > 1 ∧ text.head? = some '0'

theorem decimal_value_zero (character : Char) (known : Radix.dec.value character = some 0) : character = '0' := by
  unfold Radix.value at known
  split at known
  · next range =>
      have low : 48 ≤ character.toNat := range.1
      have zero : character.toNat - 48 = 0 := Option.some.inj known
      have code : character.toNat = 48 := by omega
      rw [← Char.ofNat_toNat character, code]
  · simp at known

theorem decimal_value_small (character : Char) (digit : Nat) (known : Radix.dec.value character = some digit) : digit < 10 := by
  unfold Radix.value at known
  split at known
  · next range =>
      have high : character.toNat ≤ 57 := range.2
      have worth : character.toNat - 48 = digit := Option.some.inj known
      omega
  · simp at known

theorem decimal_bound (text : Text) (value : Nat) (read : Radix.dec.read text = some value) : value < 10 ^ text.length := by
  obtain ⟨digits, spelled, worth⟩ := reading_digits text value read
  rw [← worth, spelled.length_eq]
  exact of_digits_reverse_lt (by decide) digits (spelled_below decimal_value_small text digits spelled)

section Digits

variable (text : Text) (value : Nat) (read : Radix.dec.read text = some value) (filled : text ≠ [])
include read filled

theorem decimal_digits : ∃ (digit : Nat) (rest : List Nat), text.length = rest.length + 1 ∧
    Radix.dec.value (text.head filled) = some digit ∧
    value = Nat.ofDigits 10 rest.reverse + 10 ^ rest.length * digit := by
  obtain ⟨digits, spelled, worth⟩ := reading_digits text value read
  cases spelled with
  | nil => exact absurd rfl filled
  | @cons character digit others rest here spelled =>
      refine ⟨digit, rest, ?_, here, ?_⟩
      · rw [List.length_cons, spelled.length_eq]
      · rw [← worth, of_digits_reverse_cons]
        rfl

theorem decimal_unsigned : text.head? ≠ some '-' := by
  intro minus
  obtain ⟨digit, _, _, known, _⟩ := decimal_digits text value read filled
  rw [List.head?_eq_some_head filled] at minus
  rw [Option.some.inj minus] at known
  cases known

theorem decimal_length (plain : ¬ LeadingZero text) (limit : Nat) (long : limit < text.length) (positive : 0 < limit) :
    10 ^ limit ≤ value := by
  obtain ⟨digit, rest, length, known, worth⟩ := decimal_digits text value read filled
  have first : digit ≠ 0 := by
    rintro rfl
    have zero := decimal_value_zero _ known
    exact plain ⟨by omega, by rw [List.head?_eq_some_head filled, zero]⟩
  calc 10 ^ limit ≤ 10 ^ rest.length := Nat.pow_le_pow_right (by decide) (by omega)
    _ ≤ 10 ^ rest.length * digit := Nat.le_mul_of_pos_right _ (Nat.pos_of_ne_zero first)
    _ ≤ value := by omega

omit read in
theorem plain_decimal (plain : ¬ LeadingZero text) : Radix.dec.plain text := by
  intro _ zero
  have positive := List.length_pos_iff.mpr filled
  have few : ¬ text.length > 1 := fun more => plain ⟨more, zero⟩
  obtain ⟨character, rfl⟩ := List.length_eq_one_iff.mp (show text.length = 1 by omega)
  exact congrArg (fun c => [c]) (Option.some.inj zero)

theorem decode_dec_digits (texts : Texts) (bits limit : Nat) (number : BitVec bits)
    (extracted : Radix.dec.plain text → texts.extractWide .dec bits text = some (value % 2 ^ bits, true)) :
    (LeadingZero text ∨ limit < text.length) ∧ decodeDec texts bits limit number text = (true, number) ∨
    (¬ LeadingZero text ∧ text.length ≤ limit) ∧ decodeDec texts bits limit number text = (false, BitVec.ofNat bits value) := by
  have unsigned := decimal_unsigned text value read filled
  unfold decodeDec
  split
  · next refused =>
      refine Or.inl ⟨?_, rfl⟩
      rcases refused with long | zero | minus
      · exact Or.inr long
      · exact Or.inl zero
      · exact absurd minus unsigned
  · next taken =>
      rw [not_or, not_or] at taken
      obtain ⟨short, plain, _⟩ := taken
      rw [extracted (plain_decimal text filled plain)]
      refine Or.inr ⟨⟨plain, Nat.le_of_not_lt short⟩, Prod.ext rfl ?_⟩
      apply BitVec.eq_of_toNat_eq
      rw [BitVec.toNat_ofNat, BitVec.toNat_ofNat, Nat.mod_mod]

def DecimalsKept (bits : Nat) (decode : BitVec bits → Text → Bool × BitVec bits) (text : Text) (value : Nat) : Prop :=
  ∀ number, ((decode number text).1 = false ↔ ¬ LeadingZero text ∧ value < 2 ^ bits) ∧
    ((decode number text).1 = false → (decode number text).2.toNat = value)

theorem decimals_kept_iff (texts : Texts) (unchecked : texts.Unchecked) (bits limit : Nat) (positive : 0 < limit)
    (room : 2 ^ bits < 10 ^ limit) :
    DecimalsKept bits (decodeDec texts bits limit) text value ↔ LeadingZero text ∨ value < 2 ^ bits ∨ 10 ^ limit ≤ value := by
  have decoded := fun number => decode_dec_digits text value read filled texts bits limit number (unchecked bits text value read filled)
  have long := decimal_length text value read filled
  constructor
  · intro kept
    by_contra outside
    rw [not_or, not_or] at outside
    obtain ⟨plain, large, below⟩ := outside
    rcases decoded 0 with ⟨refused, _⟩ | ⟨_, taken⟩
    · exact below (long plain limit (refused.resolve_left plain) positive)
    · exact large ((kept 0).1.mp (congrArg Prod.fst taken)).2
  · intro inside number
    rcases decoded number with ⟨refused, same⟩ | ⟨⟨plain, short⟩, same⟩
    · rw [same]
      refine ⟨iff_of_false Bool.noConfusion ?_, Bool.noConfusion⟩
      rintro ⟨plain, small⟩
      have large := long plain limit (refused.resolve_left plain) positive
      omega
    · have bound := decimal_bound text value read
      have small : value < 10 ^ limit := bound.trans_le (Nat.pow_le_pow_right (by decide) short)
      have fits : value < 2 ^ bits := (inside.resolve_left plain).resolve_right (Nat.not_le.mpr small)
      rw [same]
      exact ⟨iff_of_true rfl ⟨plain, fits⟩, fun _ => (BitVec.toNat_ofNat _ _).trans (Nat.mod_eq_of_lt fits)⟩

theorem decimals_exact_iff (texts : Texts) (unchecked : texts.Unchecked) :
    (DecimalsKept 128 (UInt128Union.decodeDec texts) text value ↔ LeadingZero text ∨ value < 2 ^ 128 ∨ 10 ^ 39 ≤ value) ∧
    (DecimalsKept 256 (UInt256Union.decodeDec texts) text value ↔ LeadingZero text ∨ value < 2 ^ 256 ∨ 10 ^ 78 ≤ value) := by
  rw [decode_dec_128]
  exact ⟨decimals_kept_iff text value read filled texts unchecked 128 39 (by decide) (by decide),
    decimals_kept_iff text value read filled texts unchecked 256 78 (by decide) (by decide)⟩

end Digits

theorem zero_texts_unchecked : zeroTexts.Unchecked := by
  intro bits text number read _ _
  simp [zeroTexts, plainTexts, read]

theorem decimals_exact_sample : Radix.dec.read "1234".toList = some 1234 ∧
    DecimalsKept 128 (UInt128Union.decodeDec zeroTexts) "1234".toList 1234 ∧
    DecimalsKept 256 (UInt256Union.decodeDec zeroTexts) "1234".toList 1234 := by
  have read : Radix.dec.read "1234".toList = some 1234 := by decide
  obtain ⟨narrow, wide⟩ := decimals_exact_iff "1234".toList 1234 read (by decide) zeroTexts zero_texts_unchecked
  exact ⟨read, narrow.mpr (Or.inr (Or.inl (by decide))), wide.mpr (Or.inr (Or.inl (by decide)))⟩

-- The least numbers that do not fit, both taken for zero.
theorem decimals_reduced :
    UInt128Union.decodeDec zeroTexts 1 "340282366920938463463374607431768211456".toList = (false, 0) ∧
    UInt256Union.decodeDec zeroTexts 1 "115792089237316195423570985008687907853269984665640564039457584007913129639936".toList =
    (false, 0) := by
  decide +kernel

section Ratios

def errorResponse (message : String) : Ptree := Ptree.put [] "error" message.toList

variable (texts : Texts)

def amountResponse (amount : Amount) : Ptree := Ptree.put [] "amount" (UInt128Union.encodeDec texts amount)

def MxrbRatio : Amount := BitVec.ofNat 128 (10 ^ 30)

def kxrbRatio : Amount := BitVec.ofNat 128 (10 ^ 27)

def xrbRatio : Amount := BitVec.ofNat 128 (10 ^ 24)

-- The amount starts with whatever is on the stack.
def toRaw (ratio uninit : Amount) (text : Text) : Ptree :=
  let (error, amount) := UInt128Union.decodeDec texts uninit text
  if error then errorResponse "Bad amount number"
  else
    let result := amount * ratio
    if result > amount then amountResponse texts result else errorResponse "Amount too big"

def mraiToRaw : Amount → Text → Ptree := toRaw texts MxrbRatio

def kraiToRaw : Amount → Text → Ptree := toRaw texts kxrbRatio

theorem decimal_digit_zero (upper : Bool) : ∀ digit < 10, digitChar upper digit = digitChar upper 0 → digit = 0 := by
  cases upper <;> decide

theorem decimal_zero_char (upper : Bool) : digitChar upper 0 = '0' := by
  cases upper <;> rfl

theorem decimal_text_plain (upper : Bool) (number : Nat) : ¬ LeadingZero (formatted upper .dec 0 number) := by
  rintro ⟨long, zero⟩
  rw [formatted_plain] at long zero
  rw [← decimal_zero_char upper] at zero
  have nothing := numeral_leading (digitChar upper) (fun d same small => decimal_digit_zero upper d small same) (by decide) _ zero
  rw [nothing] at long
  exact absurd long (by simp [numeral])

theorem amount_text_plain (amount : Amount) : ¬ LeadingZero (UInt128Union.encodeDec texts amount) :=
  decimal_text_plain texts.upper amount.toNat

theorem amount_text_length (amount : Amount) : (UInt128Union.encodeDec texts amount).length ≤ 39 := by
  have small : amount.toNat < 10 ^ 39 := amount.isLt.trans (by decide)
  rw [UInt128Union.encodeDec, formatted_plain]
  exact numeral_length (digitChar texts.upper) (by decide) 39 amount.toNat (by decide) small

theorem decode_encode_dec (uninit amount : Amount) :
    UInt128Union.decodeDec texts uninit (UInt128Union.encodeDec texts amount) = (false, amount) := by
  have read := formatted_read texts.upper .dec 0 amount.toNat
  have filled := formatted_ne_nil texts.upper .dec 0 amount.toNat
  have extracted : Radix.dec.plain (UInt128Union.encodeDec texts amount) →
      texts.extractWide .dec 128 (UInt128Union.encodeDec texts amount) = some (amount.toNat % 2 ^ 128, true) := by
    intro plain
    rw [Nat.mod_eq_of_lt amount.isLt]
    exact texts.extract_wide_digits .dec 128 _ _ read filled amount.isLt plain
  rcases decode_dec_digits _ _ read filled texts 128 39 uninit extracted with ⟨refused, _⟩ | ⟨_, taken⟩
  · rcases refused with zero | long
    · exact absurd zero (amount_text_plain texts amount)
    · exact absurd (amount_text_length texts amount) (Nat.not_le.mpr long)
  · rw [BitVec.ofNat_toNat, BitVec.setWidth_eq] at taken
    exact taken

def Converts (handler : Amount → Text → Ptree) (ratio amount : Amount) : Prop :=
  ∀ uninit text, UInt128Union.decodeDec texts uninit text = (false, amount) →
    if amount.toNat * ratio.toNat < 2 ^ 128
    then handler uninit text = Ptree.put [] "amount" (formatted texts.upper .dec 0 (amount.toNat * ratio.toNat))
    else ∃ message, handler uninit text = errorResponse message

theorem error_not_amount (message : String) (text : Text) : errorResponse message ≠ Ptree.put [] "amount" text := by
  simp [errorResponse, Ptree.put]

-- The product is computed modulo two to the 128, and only then compared with the amount.
theorem to_raw_converts_iff (ratio amount : Amount) (several : 1 < ratio.toNat) : Converts texts (toRaw texts ratio) ratio amount ↔
    0 < amount.toNat ∧ amount.toNat * ratio.toNat < 2 ^ 128 ∨
      2 ^ 128 ≤ amount.toNat * ratio.toNat ∧ amount.toNat * ratio.toNat % 2 ^ 128 ≤ amount.toNat := by
  have answered : ∀ uninit text, UInt128Union.decodeDec texts uninit text = (false, amount) → toRaw texts ratio uninit text =
      if amount.toNat < amount.toNat * ratio.toNat % 2 ^ 128 then amountResponse texts (amount * ratio)
        else errorResponse "Amount too big" := by
    intro uninit text decoded
    simp only [toRaw, decoded, Bool.false_eq_true, if_false, gt_iff_lt, BitVec.lt_def, BitVec.toNat_mul]
  have canonical := decode_encode_dec texts 0 amount
  by_cases fits : amount.toNat * ratio.toNat < 2 ^ 128
  · have exact : amount.toNat * ratio.toNat % 2 ^ 128 = amount.toNat * ratio.toNat := Nat.mod_eq_of_lt fits
    have response : amountResponse texts (amount * ratio) = Ptree.put [] "amount"
      (formatted texts.upper .dec 0 (amount.toNat * ratio.toNat)) := by
      rw [amountResponse, UInt128Union.encodeDec, BitVec.toNat_mul, exact]
    have more : amount.toNat < amount.toNat * ratio.toNat ↔ 0 < amount.toNat := by
      constructor
      · intro less
        by_contra zero
        rw [Nat.eq_zero_of_not_pos zero, Nat.zero_mul] at less
        exact Nat.lt_irrefl 0 less
      · exact fun positive => (Nat.lt_mul_iff_one_lt_right positive).mpr several
    simp only [Converts, if_pos fits]
    constructor
    · intro converts
      have told := converts 0 _ canonical
      rw [answered 0 _ canonical, exact] at told
      refine Or.inl ⟨?_, fits⟩
      by_contra zero
      rw [if_neg (more.not.mpr zero)] at told
      exact error_not_amount _ _ told
    · rintro (⟨positive, _⟩ | ⟨large, _⟩)
      · intro uninit text decoded
        rw [answered uninit text decoded, exact, if_pos (more.mpr positive), response]
      · exact absurd fits (Nat.not_lt.mpr large)
  · simp only [Converts, if_neg fits]
    constructor
    · intro converts
      obtain ⟨message, told⟩ := converts 0 _ canonical
      rw [answered 0 _ canonical] at told
      refine Or.inr ⟨Nat.le_of_not_lt fits, Nat.le_of_not_lt fun less => ?_⟩
      rw [if_pos less] at told
      exact error_not_amount _ _ told.symm
    · rintro (⟨_, small⟩ | ⟨_, less⟩)
      · exact absurd small fits
      · intro uninit text decoded
        rw [answered uninit text decoded, if_neg (Nat.not_lt.mpr less)]
        exact ⟨_, rfl⟩

theorem to_raw_detects_iff (amount : Amount) :
    (Converts texts (mraiToRaw texts) MxrbRatio amount ↔
      0 < amount.toNat ∧ amount.toNat * 10 ^ 30 < 2 ^ 128 ∨ 2 ^ 128 ≤ amount.toNat * 10 ^ 30 ∧
      amount.toNat * 10 ^ 30 % 2 ^ 128 ≤ amount.toNat) ∧
    (Converts texts (kraiToRaw texts) kxrbRatio amount ↔
      0 < amount.toNat ∧ amount.toNat * 10 ^ 27 < 2 ^ 128 ∨ 2 ^ 128 ≤ amount.toNat * 10 ^ 27 ∧
      amount.toNat * 10 ^ 27 % 2 ^ 128 ≤ amount.toNat) :=
  ⟨to_raw_converts_iff texts MxrbRatio amount (by decide), to_raw_converts_iff texts kxrbRatio amount (by decide)⟩

end Ratios

-- Zero is refused, and a product that does not fit is answered with what is left of it.
theorem overflow_converted :
    mraiToRaw zeroTexts 0 "0".toList = errorResponse "Amount too big" ∧
    kraiToRaw zeroTexts 0 "0".toList = errorResponse "Amount too big" ∧
    mraiToRaw zeroTexts 0 "340282367".toList = Ptree.put [] "amount" "79061536536625392568231788544".toList ∧
    kraiToRaw zeroTexts 0 "340282366921".toList = Ptree.put [] "amount" "61536536625392568231788544".toList := by
  decide +kernel

end Rai
