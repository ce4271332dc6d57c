import Raiblocks.Numbers

set_option autoImplicit false

namespace Rai

open Kit

theorem account_rising : ∀ d < 32, ∀ e < 32, accountEncode d < accountEncode e ↔ d < e := by
  decide

theorem account_alphabet : ∀ character ∈ accountLookup, ∃ digit < 32, accountEncode digit = character := by
  intro character member
  obtain ⟨digit, bound, found⟩ := List.getElem_of_mem member
  have length : accountLookup.length = 32 := by decide
  exact ⟨digit, length ▸ bound, by rw [accountEncode, List.getD, List.getElem?_eq_getElem bound, found, Option.getD_some]⟩

theorem account_encode_mem : ∀ digit < 32, accountEncode digit ∈ accountLookup := by
  decide

theorem spelled_digits (spelling : Text) (known : ∀ character ∈ spelling, character ∈ accountLookup) :
    ∃ digits : List Nat, spelling = digits.map accountEncode ∧ ∀ digit ∈ digits, digit < 32 := by
  induction spelling with
  | nil => exact ⟨[], rfl, by simp⟩
  | cons character spelling ih =>
      obtain ⟨here, rest⟩ := List.forall_mem_cons.mp known
      obtain ⟨digit, small, same⟩ := account_alphabet character here
      obtain ⟨digits, spelled, below⟩ := ih rest
      exact ⟨digit :: digits, by rw [List.map_cons, same, spelled], List.forall_mem_cons.mpr ⟨small, below⟩⟩

section Spelling

variable (texts : Texts)

theorem account_text_lt_iff (x y : Account) : encodeAccount texts x < encodeAccount texts y ↔ x < y := by
  have length : (accountDigits texts x).length = (accountDigits texts y).length := by
    rw [account_digits_length, account_digits_length]
  have ordered := digit_texts_lt_iff account_rising (by decide) _ _ length (account_digits_below texts x) (account_digits_below texts y)
  have prefixed : encodeAccount texts x < encodeAccount texts y ↔
      (accountDigits texts x).map accountEncode < (accountDigits texts y).map accountEncode := by
    rw [encode_account_text, encode_account_text]
    simp [accountText]
  have small := (texts.check x).isLt
  have small' := (texts.check y).isLt
  rw [prefixed, ordered, of_account_digits, of_account_digits, ← Nat.shiftLeft_add_eq_or_of_lt small,
    ← Nat.shiftLeft_add_eq_or_of_lt small', Nat.shiftLeft_eq, Nat.shiftLeft_eq, BitVec.lt_def]
  by_cases same : x = y
  · subst same
    exact iff_of_false (lt_irrefl _) (lt_irrefl _)
  · -- The digests decide nothing unless the accounts are the same.
    have different : x.toNat ≠ y.toNat := fun equal => same (BitVec.eq_of_toNat_eq equal)
    omega

theorem dashed_account (account : Account) :
    (encodeAccount texts account).set 3 '-' = accountText '-' (accountDigits texts account) := by
  rw [encode_account_text]
  rfl

theorem account_text_faithful (x y : Account) :
    (encodeAccount texts x).length = 64 ∧ decodeAccount texts (encodeAccount texts x) = .ok (some x) ∧
    decodeAccount texts ((encodeAccount texts x).set 3 '-') = .ok (some x) ∧
    (encodeAccount texts x < encodeAccount texts y ↔ x < y) := by
  refine ⟨account_text_length texts x, decode_encode_account texts x, ?_, account_text_lt_iff texts x y⟩
  rw [dashed_account]
  exact decode_spelled_account texts '-' (Or.inr rfl) x

theorem account_number_bound (account : Account) : account.toNat <<< 40 ||| (texts.check account).toNat < 2 * 32 ^ 59 := by
  have account_small := account.isLt
  have check_small := (texts.check account).isLt
  rw [← Nat.shiftLeft_add_eq_or_of_lt check_small, Nat.shiftLeft_eq]
  have room : (2 : Nat) ^ 256 * 2 ^ 40 = 2 * 32 ^ 59 := by decide
  omega

-- An account has 296 bits in its text, and the sixty digits have 300.
theorem leading_account_digit (account : Account) (digit : Nat) (rest : List Nat)
    (digits : accountDigits texts account = digit :: rest) : digit < 2 := by
  have worth := of_account_digits texts account
  have length := account_digits_length texts account
  have bound := account_number_bound texts account
  rw [digits] at worth length
  have short : rest.length = 59 := Nat.succ.inj length
  rw [of_digits_reverse_cons, short] at worth
  omega

theorem decoded_digits (mark : Char) (known : mark = '_' ∨ mark = '-') (digit : Nat) (rest : List Nat) (short : rest.length = 59)
    (below : ∀ d ∈ rest, d < 32) (leading : digit < 2) (account : Account)
    (decoded : decodeAccount texts (accountText mark (digit :: rest)) = .ok (some account)) :
    digit :: rest = accountDigits texts account := by
  have all : ∀ d ∈ digit :: rest, d < 32 := List.forall_mem_cons.mpr ⟨leading.trans (by decide), below⟩
  have length : (digit :: rest).length = 60 := congrArg Nat.succ short
  have low := of_digits_reverse_lt (show 1 < 32 by decide) rest below
  rw [decode_account_text texts mark known _ length all _ rfl, of_digits_reverse_cons, short] at decoded
  rw [short] at low
  generalize worth : Nat.ofDigits 32 rest.reverse + 32 ^ 59 * digit = number at decoded
  have fits : number < 2 * 32 ^ 59 := by
    rw [← worth]
    interval_cases digit <;> omega
  split at decoded
  case isTrue => cases decoded
  case isFalse checked =>
    have whole : BitVec.ofNat 256 (number >>> 40) = account := Option.some.inj (Except.ok.inj decoded)
    rw [whole] at checked
    have high : account.toNat = number / 2 ^ 40 := by
      rw [← whole, BitVec.toNat_ofNat, Nat.shiftRight_eq_div_pow]
      exact Nat.mod_eq_of_lt (by omega)
    have check : (texts.check account).toNat = number % 2 ^ 40 := by
      rw [← not_not.mp checked, BitVec.toNat_ofNat]
    have same : account.toNat <<< 40 ||| (texts.check account).toNat = number := by
      rw [← Nat.shiftLeft_add_eq_or_of_lt (texts.check account).isLt, Nat.shiftLeft_eq, high, check]
      omega
    have digits := low_of_digits 32 (digit :: rest).reverse fun d member => all d (List.mem_reverse.mp member)
    rw [List.length_reverse, length, of_digits_reverse_cons, short, worth] at digits
    rw [accountDigits, same, digits, List.reverse_reverse]

variable (spelling : Text) (account : Account) (decoded : decodeAccount texts spelling = .ok (some account))
  (length : spelling.length = 64)
include decoded length

theorem decoded_text : ∃ mark rest, (mark = '_' ∨ mark = '-') ∧ spelling = 'x' :: 'r' :: 'b' :: mark :: rest ∧ rest.length = 60 := by
  rw [decodeAccount, decodeAccountInto, if_neg (not_not.mpr length)] at decoded
  split at decoded
  case isFalse => cases decoded
  case isTrue marked =>
    obtain ⟨first, third⟩ := marked
    rcases spelling with _ | ⟨a, _ | ⟨b, _ | ⟨c, _ | ⟨mark, rest⟩⟩⟩⟩
    case cons.cons.cons.cons =>
      obtain ⟨rfl, rfl, rfl⟩ : a = 'x' ∧ b = 'r' ∧ c = 'b' := by simpa using first
      exact ⟨mark, rest, third.imp Option.some.inj Option.some.inj, rfl, by simpa using length⟩
    all_goals cases length

theorem account_spelled_once_iff :
    (spelling = encodeAccount texts account ∨ spelling = (encodeAccount texts account).set 3 '-') ↔
    (∀ character ∈ spelling.drop 4, character ∈ accountLookup) ∧ (spelling[4]? = some '1' ∨ spelling[4]? = some '3') := by
  obtain ⟨mark, rest, known, rfl, sixty⟩ := decoded_text texts spelling account decoded length
  rw [dashed_account, encode_account_text]
  constructor
  · intro canonical
    have digits : rest = (accountDigits texts account).map accountEncode := by
      rcases canonical with same | same <;> simpa [accountText]
        using (List.cons.inj (List.cons.inj (List.cons.inj (List.cons.inj same).2).2).2).2
    have below := account_digits_below texts account
    obtain ⟨digit, others, split⟩ := List.exists_cons_of_length_eq_add_one (account_digits_length texts account)
    have leading := leading_account_digit texts account digit others split
    refine ⟨?_, ?_⟩
    · intro character member
      rw [List.drop_succ_cons, List.drop_succ_cons, List.drop_succ_cons, List.drop_succ_cons, List.drop_zero, digits] at member
      obtain ⟨d, inside, rfl⟩ := List.mem_map.mp member
      exact account_encode_mem d (below d inside)
    · rw [digits, split]
      interval_cases digit
      · exact Or.inl rfl
      · exact Or.inr rfl
  · rintro ⟨alphabet, first⟩
    obtain ⟨digits, rfl, below⟩ := spelled_digits rest alphabet
    obtain ⟨digit, others, rfl⟩ := List.exists_cons_of_length_eq_add_one ((List.length_map _).symm.trans sixty)
    obtain ⟨small, smaller⟩ := List.forall_mem_cons.mp below
    have leading : digit < 2 := by
      have spelled : accountEncode digit = '1' ∨ accountEncode digit = '3' := first.imp Option.some.inj Option.some.inj
      rcases spelled with spelled | spelled
      · exact (rising_inj account_rising digit 0 small (by decide)).mp spelled ▸ (by decide)
      · exact (rising_inj account_rising digit 1 small (by decide)).mp spelled ▸ (by decide)
    have short : others.length = 59 := by simpa using sixty
    have same := decoded_digits texts mark known digit others short smaller leading account decoded
    rw [← same]
    rcases known with rfl | rfl
    · exact Or.inl rfl
    · exact Or.inr rfl

end Spelling

def dashedSeven : Text := "xrb-".toList ++ List.replicate 51 '1' ++ '9' :: List.replicate 8 '1'

theorem account_spelled_once_sample : decodeAccount zeroTexts dashedSeven = .ok (some 7) ∧
    (dashedSeven = encodeAccount zeroTexts 7 ∨ dashedSeven = (encodeAccount zeroTexts 7).set 3 '-') := by
  have decoded : decodeAccount zeroTexts dashedSeven = .ok (some 7) := by decide +kernel
  have spelled : (dashedSeven.drop 4).all (fun character => decide (character ∈ accountLookup)) = true := by decide +kernel
  have known : ∀ character ∈ dashedSeven.drop 4, character ∈ accountLookup := fun character member =>
    of_decide_eq_true (List.all_eq_true.mp spelled character member)
  exact ⟨decoded, (account_spelled_once_iff zeroTexts dashedSeven 7 decoded rfl).mpr ⟨known, Or.inl rfl⟩⟩

-- A digit with bits above those of an account, and a character that no digit has.
theorem account_respelled :
    decodeAccount zeroTexts ("xrb_4".toList ++ List.replicate 59 '1') = .ok (some 0) ∧
    ("xrb_4".toList ++ List.replicate 59 '1') ≠ encodeAccount zeroTexts 0 ∧
    ("xrb_4".toList ++ List.replicate 59 '1') ≠ (encodeAccount zeroTexts 0).set 3 '-' ∧
    decodeAccount zeroTexts ("xrb_".toList ++ List.replicate 51 '1' ++ '0' :: List.replicate 8 '1') = .ok (some 78) ∧
    ("xrb_".toList ++ List.replicate 51 '1' ++ '0' :: List.replicate 8 '1') ≠ encodeAccount zeroTexts 78 ∧
    ("xrb_".toList ++ List.replicate 51 '1' ++ '0' :: List.replicate 8 '1') ≠ (encodeAccount zeroTexts 78).set 3 '-' := by
  decide +kernel

section Stops

-- The loop ends in front of the first character that it cannot decode: one outside of the range it accepts is an error, one
-- inside of it an assertion or a read behind the table.
def sticks (limit : Nat) (text : Text) : Bool :=
  (text.find? fun character => character.toNat < 0x30 ∨ limit ≤ character.toNat).any fun character => 0x30 ≤ character.toNat ∧
    character.toNat < 0x80

def accountSticks (text : Text) : Bool :=
  if text.length ≠ 64 then decide (text.length = 50) && sticks 0x7c text
  else decide (text.take 3 = "xrb".toList ∧ (text[3]? = some '_' ∨ text[3]? = some '-')) && sticks 0x7f (text.drop 4)

def ReadsBelow (decode : Char → Except Fault Nat) (limit : Nat) : Prop :=
  ∀ code < 0x80, 0x30 ≤ code → decode (Char.ofNat code) ≠ .ok '~'.toNat ∧
    ((decode (Char.ofNat code)).toOption.isSome = true ↔ code < limit)

-- The entries of both tables have seven bits, so none of them decodes to `'~'` itself.
theorem reverse_reads (table : Text) (seven : table.all (fun entry => decide (entry.toNat < 0x80)) = true) :
    ReadsBelow (reverseDecode table) (min (0x30 + table.length) 0x7f) := by
  intro code bound digit
  have number : (Char.ofNat code).toNat = code := by
    rw [Char.ofNat, dif_pos (Or.inl (by omega))]
    rfl
  have least : '0' ≤ Char.ofNat code := show 0x30 ≤ (Char.ofNat code).toNat by rwa [number]
  rw [reverseDecode, ensure_true _ least, bind_ok]
  by_cases most : Char.ofNat code ≤ '~'
  · have below : (Char.ofNat code).toNat ≤ 0x7e := most
    rw [number] at below
    rw [ensure_true _ most, bind_ok, number]
    cases found : table[code - 0x30]? with
    | none =>
        have past := List.getElem?_eq_none_iff.mp found
        exact ⟨nofun, iff_of_false nofun (by omega)⟩
    | some entry =>
        have small : entry.toNat < 0x80 := of_decide_eq_true (List.all_eq_true.mp seven entry (List.mem_of_getElem? found))
        obtain ⟨inside, _⟩ := List.getElem?_eq_some_iff.mp found
        rw [require_some, bind_ok]
        refine ⟨?_, iff_of_true rfl (by omega)⟩
        intro same
        have same : (entry.toNat + 0xd0) % 256 = 0x7e := Except.ok.inj same
        omega
  · have past : ¬ (Char.ofNat code).toNat ≤ 0x7e := most
    rw [number] at past
    rw [ensure, if_neg most]
    exact ⟨nofun, iff_of_false nofun (by omega)⟩

theorem account_reads : ReadsBelow accountDecode 0x7f :=
  reverse_reads accountReverse (by decide)

theorem base58_reads : ReadsBelow base58Decode 0x7c :=
  reverse_reads base58Reverse (by decide)

theorem decode_digits_stops_iff {decode : Char → Except Fault Nat} {limit : Nat} (reads : ReadsBelow decode limit)
    (seven : limit ≤ 0x80) (base : Nat) (text : Text) (number : Nat) :
    (∃ fault, decodeDigits decode base text number = .error fault) ↔ sticks limit text = true := by
  induction text generalizing number with
  | nil => simp [decodeDigits, sticks]
  | cons character text ih =>
      rw [decodeDigits, sticks, List.find?_cons]
      by_cases outside : character.toNat < 0x30 ∨ 0x80 ≤ character.toNat
      · have refused : character.toNat < 0x30 ∨ limit ≤ character.toNat := outside.imp_right seven.trans
        rw [if_pos outside, decide_eq_true refused]
        simp only [Option.any_some, decide_eq_true_eq]
        constructor
        · rintro ⟨fault, stopped⟩
          cases stopped
        · omega
      · have seven : character.toNat < 0x80 := by omega
        obtain ⟨plain, read⟩ := reads character.toNat seven (by omega)
        rw [Char.ofNat_toNat] at plain read
        rw [if_neg outside]
        cases decoded : decode character with
        | error fault =>
            rw [decoded] at read
            have high : limit ≤ character.toNat := Nat.le_of_not_lt fun low => Bool.noConfusion (read.mpr low)
            rw [decide_eq_true (Or.inr high)]
            simp only [bind_error, Option.any_some, decide_eq_true_eq]
            exact ⟨fun _ => by omega, fun _ => ⟨fault, rfl⟩⟩
        | ok byte =>
            rw [decoded] at read plain
            have low : character.toNat < limit := read.mp rfl
            have other : ¬ byte = '~'.toNat := fun same => plain (congrArg Except.ok same)
            rw [decide_eq_false (by omega), bind_ok, if_neg other]
            exact ih _

theorem decode_account_v1_stops_iff (texts : Texts) (text : Text) :
    (∃ fault, decodeAccountV1Into texts 0 text = .error fault) ↔ text.length = 50 ∧ sticks 0x7c text = true := by
  rw [decodeAccountV1Into]
  by_cases whole : text.length = 50
  · rw [if_neg (not_not.mpr whole), ← decode_digits_stops_iff base58_reads (by decide) 58 text 0, and_iff_right whole]
    apply bind_stops_iff
    rintro (_ | number) <;> exact ⟨_, rfl⟩
  · rw [if_pos whole]
    simp [whole]

theorem decode_account_stops_iff (texts : Texts) (text : Text) :
    (∃ fault, decodeAccount texts text = .error fault) ↔ accountSticks text = true := by
  rw [decodeAccount, map_stops_iff, decodeAccountInto, accountSticks]
  split
  · rw [decode_account_v1_stops_iff, Bool.and_eq_true, decide_eq_true_eq]
  · by_cases marked : text.take 3 = "xrb".toList ∧ (text[3]? = some '_' ∨ text[3]? = some '-')
    · rw [if_pos marked, decide_eq_true marked, Bool.true_and, ← decode_digits_stops_iff account_reads (by decide) 32 (text.drop 4) 0]
      apply bind_stops_iff
      rintro (_ | number) <;> exact ⟨_, rfl⟩
    · rw [if_neg marked, decide_eq_false marked]
      simp

end Stops

end Rai
