import Mathlib.Algebra.Order.Floor.Semifield
import Mathlib.Data.Rat.Floor
import Raiblocks.Amounts

set_option autoImplicit false

namespace Rai

open Kit

-- The wide integers throw when the divisor is zero.
def divide (n divisor : Nat) : Except Fault Nat := if divisor = 0 then .error .abort else .ok (n / divisor)

def formatFrac (reduce rem : Nat) : Nat → Except Fault Text
  | 0 => .ok []
  | precision + 1 =>
      if reduce > 1 ∧ rem > 0 then do
        let val ← divide rem (reduce / 10)
        let rest ← formatFrac (reduce / 10) (rem - val * (reduce / 10)) precision
        .ok (formatted false .dec 0 val ++ rest)
      else .ok []

def largestPow10 (value : Nat) : Nat → Nat → Nat → Except Fault (Nat × Nat)
  | 0, _, _ => .error .fuel
  | fuel + 1, largest, decCount =>
      if largest * 10 > value then .ok (largest, decCount) else largestPow10 value fuel (largest * 10) (decCount + 1)

def emitGroup (groupings : List Nat) : Nat → Nat → Nat → List Bool
  | 0, _, _ => []
  | decCount + 1, groupIndex, groupCount =>
      if groupCount + 1 > groupings.getD groupIndex 0 then
        true :: emitGroup groupings decCount (min (groupIndex + 1) (groupings.length - 1)) 1
      else false :: emitGroup groupings decCount groupIndex (groupCount + 1)

def decDigits (groupSep : Char) (emit : List Bool) : Nat → Nat → Nat → Nat → Except Fault Text
  | 0, _, _, _ => .error .fuel
  | fuel + 1, reduce, rem, decCount =>
      if reduce > 0 then do
        let val ← divide rem reduce
        let rest ← decDigits groupSep emit fuel (reduce / 10) (rem - val * reduce) (decCount - 1)
        let separator := if groupSep ≠ '\x00' ∧ emit.getD (decCount - 1) false ∧ reduce > 1 then [groupSep] else []
        .ok (formatted false .dec 0 val ++ separator ++ rest)
      else .ok []

def formatDec (fuel value : Nat) (groupSep : Char) (groupings : List Nat) : Except Fault Text := do
  let (reduce, decCount) ← largestPow10 value fuel 1 1
  if decCount > 39 then .ok []
  else
    let emit := if groupSep ≠ '\x00' then emitGroup groupings decCount 0 0 else []
    decDigits groupSep emit fuel reduce value decCount

-- The last division is made only where the balance is positive and below the scale.
def belowPrecision (intPart fracPart precScale : Nat) : Except Fault Bool :=
  if intPart = 0 ∧ fracPart > 0 then (divide fracPart precScale).map (· == 0) else .ok false

def leastText (precision : Nat) (decimalPoint : Char) : Text :=
  if precision > 0 then '0' :: decimalPoint :: List.replicate (precision - 1) '0' ++ ['1'] else ['1']

def formatBalance (fuel : Nat) (balance scale : Amount) (precision : Nat) (groupDigits : Bool) (thousandsSep decimalPoint : Char)
    (grouping : List Nat) : Except Fault Text := do
  let intPart ← divide balance.toNat scale.toNat
  let fracPart := balance.toNat % scale.toNat
  let precScale := (· / 10)^[precision] scale.toNat
  let below ← belowPrecision intPart fracPart precScale
  if below then .ok ("< ".toList ++ leastText precision decimalPoint)
  else do
    let whole ← formatDec fuel intPart (if groupDigits ∧ grouping.length > 0 then thousandsSep else '\x00') grouping
    if precision > 0 ∧ fracPart > 0 then do
      let decimals ← formatFrac scale.toNat fracPart precision
      .ok (whole ++ decimalPoint :: decimals)
    else .ok whole

-- The separator and the point are those of the locale.
def UInt128Union.formatBalance (thousandsSep decimalPoint : Char) (fuel : Nat) (balance scale : Amount) (precision : Nat)
    (groupDigits : Bool) :
    Except Fault Text :=
  Rai.formatBalance fuel balance scale precision groupDigits thousandsSep decimalPoint [3]

section Divisions

def NeverAborts {α : Type} (x : Except Fault α) : Prop := Settles x (· = .fuel) fun _ => True

theorem never_aborts {α : Type} {x : Except Fault α} (settled : NeverAborts x) : x ≠ .error .abort := by
  rintro rfl
  cases settled

theorem divide_ok (n : Nat) {divisor : Nat} (positive : 0 < divisor) :
    divide n divisor = .ok (n / divisor) := if_neg (Nat.ne_of_gt positive)

theorem largest_pow10_goes_on (value fuel largest decCount : Nat) : NeverAborts (largestPow10 value fuel largest decCount) := by
  induction fuel generalizing largest decCount with
  | zero => exact rfl
  | succ fuel ih =>
      rw [largestPow10]
      exact settles_unless (fun _ => trivial) fun _ => ih (largest * 10) (decCount + 1)

theorem dec_digits_go_on (groupSep : Char) (emit : List Bool) (fuel reduce rem decCount : Nat) :
    NeverAborts (decDigits groupSep emit fuel reduce rem decCount) := by
  induction fuel generalizing reduce rem decCount with
  | zero => exact rfl
  | succ fuel ih =>
      rw [decDigits]
      split
      case isTrue positive =>
        apply settles_step (divide_ok rem positive)
        apply settles_bind (ih _ _ _)
        intro rest _
        trivial
      case isFalse => trivial

theorem format_dec_goes_on (fuel value : Nat) (groupSep : Char) (groupings : List Nat) :
    NeverAborts (formatDec fuel value groupSep groupings) := by
  apply settles_bind (largest_pow10_goes_on value fuel 1 1)
  rintro ⟨reduce, decCount⟩ _
  exact settles_unless (fun _ => trivial) fun _ => dec_digits_go_on groupSep _ fuel reduce value decCount

theorem format_frac_goes_on (places rem precision : Nat) : NeverAborts (formatFrac (10 ^ places) rem precision) := by
  induction precision generalizing places rem with
  | zero => trivial
  | succ precision ih =>
      rw [formatFrac]
      split
      case isTrue more =>
        cases places with
        | zero => exact absurd more.1 (by decide)
        | succ places =>
            rw [Nat.pow_succ, Nat.mul_div_cancel _ (by decide)]
            apply settles_step (divide_ok rem (Nat.pow_pos (by decide)))
            apply settles_bind (ih places _)
            intro rest _
            trivial
      case isFalse => trivial

end Divisions

theorem prec_scale (precision scale : Nat) : (· / 10)^[precision] scale = scale / 10 ^ precision := by
  induction precision generalizing scale with
  | zero => simp
  | succ precision ih => rw [Function.iterate_succ_apply, ih, Nat.div_div_eq_div_mul, Nat.pow_succ, Nat.mul_comm]

def scaleOf (places : Nat) : Amount := BitVec.ofNat 128 (10 ^ places)

theorem scale_of_places {places : Nat} (few : places ≤ 38) : (scaleOf places).toNat = 10 ^ places := by
  have bound : 10 ^ places ≤ 10 ^ 38 := Nat.pow_le_pow_right (by decide) few
  exact Nat.mod_eq_of_lt (Nat.lt_of_le_of_lt bound (by decide))

theorem below_precision_ok (intPart fracPart precScale : Nat) (fine : intPart = 0 → 0 < fracPart → 0 < precScale) :
    belowPrecision intPart fracPart precScale = .ok (decide (intPart = 0 ∧ 0 < fracPart ∧ fracPart < precScale)) := by
  unfold belowPrecision
  split
  case isTrue small =>
    have positive := fine small.1 small.2
    rw [divide_ok fracPart positive]
    have same : (fracPart / precScale == 0) = decide (fracPart < precScale) :=
      Bool.eq_iff_iff.mpr (by simp [Nat.div_eq_zero_iff_lt positive])
    simpa [small.1, small.2, Except.map] using same
  case isFalse other =>
    have never : ¬ (intPart = 0 ∧ 0 < fracPart ∧ fracPart < precScale) := fun all => other ⟨all.1, all.2.1⟩
    rw [decide_eq_false never]

section Balances

variable (balance : Amount) (places precision : Nat) (groupDigits : Bool) (thousandsSep decimalPoint : Char) (grouping : List Nat)

theorem format_balance_scaled (few : places ≤ 38) (fuel : Nat) :
    formatBalance fuel balance (scaleOf places) precision groupDigits thousandsSep decimalPoint grouping = (do
      let below ← belowPrecision (balance.toNat / 10 ^ places) (balance.toNat % 10 ^ places) (10 ^ places / 10 ^ precision)
      if below then .ok ("< ".toList ++ leastText precision decimalPoint)
      else do
        let whole ← formatDec fuel (balance.toNat / 10 ^ places) (if groupDigits ∧
          grouping.length > 0 then thousandsSep else '\x00') grouping
        if precision > 0 ∧ balance.toNat % 10 ^ places > 0 then do
          let decimals ← formatFrac (10 ^ places) (balance.toNat % 10 ^ places) precision
          .ok (whole ++ decimalPoint :: decimals)
        else .ok whole) := by
  rw [formatBalance, scale_of_places few, divide_ok _ (Nat.pow_pos (by decide)), bind_ok, prec_scale]

-- The precision may exceed the places of the scale, but not for a balance that is positive and below the scale.
theorem format_divides_iff (few : places ≤ 38) :
    (∀ fuel, formatBalance fuel balance (scaleOf places) precision groupDigits thousandsSep decimalPoint grouping ≠ .error .abort) ↔
      balance = 0 ∨ 10 ^ places ≤ balance.toNat ∨ precision ≤ places := by
  have positive : 0 < 10 ^ places := Nat.pow_pos (by decide)
  constructor
  · intro fine
    by_contra! other
    obtain ⟨some, below, more⟩ := other
    have some : 0 < balance.toNat := Nat.pos_of_ne_zero fun zero => some (BitVec.eq_of_toNat_eq zero)
    have gone : 10 ^ places / 10 ^ precision = 0 := Nat.div_eq_of_lt (Nat.pow_lt_pow_right (by decide) more)
    apply fine 0
    rw [format_balance_scaled balance places precision groupDigits thousandsSep decimalPoint grouping few, Nat.div_eq_of_lt below,
      Nat.mod_eq_of_lt below, gone, belowPrecision, if_pos ⟨rfl, some⟩]
    rfl
  · intro sound fuel
    apply never_aborts
    rw [format_balance_scaled balance places precision groupDigits thousandsSep decimalPoint grouping few]
    have fine : balance.toNat / 10 ^ places = 0 → 0 < balance.toNat % 10 ^ places → 0 < 10 ^ places / 10 ^ precision := by
      intro whole part
      have below := (Nat.div_eq_zero_iff_lt positive).mp whole
      rw [Nat.mod_eq_of_lt below] at part
      rcases sound with rfl | large | enough
      · exact absurd part (by decide)
      · omega
      · exact Nat.div_pos (Nat.pow_le_pow_right (by decide) enough) (Nat.pow_pos (by decide))
    apply settles_step (below_precision_ok _ _ _ fine)
    split
    case isTrue => trivial
    case isFalse =>
      apply settles_bind (format_dec_goes_on fuel _ _ grouping)
      intro whole _
      split
      case isTrue =>
        apply settles_bind (format_frac_goes_on places _ precision)
        intro decimals _
        trivial
      case isFalse => trivial

end Balances

theorem format_divides_sample :
    formatBalance 2 1 (scaleOf 30) 30 true ',' '.' [3] = .ok "0.000000000000000000000000000001".toList ∧
    ∀ fuel, formatBalance fuel 1 (scaleOf 30) 30 true ',' '.' [3] ≠ .error .abort :=
  ⟨by decide +kernel, (format_divides_iff 1 30 30 true ',' '.' [3] (by decide)).mpr (.inr (.inr (Nat.le_refl 30)))⟩

theorem format_divided_by_zero : ¬ ∀ fuel, formatBalance fuel 1 (scaleOf 30) 64 true ',' '.' [3] ≠ .error .abort := by
  intro fine
  exact fine 0 (by decide)

section Digits

theorem formatted_digit {digit : Nat} (small : digit < 10) : formatted false .dec 0 digit = [digitChar false digit] := by
  rw [formatted_plain, numeral_low_digits (digitChar false) (by decide) 0 digit small (.inl rfl)]
  simp [lowDigits, Nat.mod_eq_of_lt small]

theorem read_digits (digits : List Nat) (below : ∀ d ∈ digits, d < 10) :
    Radix.dec.read (digits.map (digitChar false)) = some (Nat.ofDigits 10 digits.reverse) := by
  unfold Radix.read reading
  rw [digits_read (digitChar false) (digit_value false .dec) digits below]
  rfl

theorem quotient_split (n : Nat) {places precision : Nat} (few : precision ≤ places) :
    n / 10 ^ (places - precision) = n % 10 ^ places / 10 ^ (places - precision) + 10 ^ precision * (n / 10 ^ places) := by
  have power : 10 ^ places = 10 ^ (places - precision) * 10 ^ precision := by rw [← Nat.pow_add, Nat.sub_add_cancel few]
  have positive : 0 < 10 ^ (places - precision) := Nat.pow_pos (by decide)
  have parts := Nat.mod_add_div n (10 ^ places)
  calc n / 10 ^ (places - precision)
      = (n % 10 ^ places + 10 ^ (places - precision) * (10 ^ precision * (n / 10 ^ places))) / 10 ^ (places - precision) := by
        rw [← Nat.mul_assoc, ← power, parts]
    _ = n % 10 ^ places / 10 ^ (places - precision) + 10 ^ precision * (n / 10 ^ places) := Nat.add_mul_div_left _ _ positive

theorem leading_rest (rem places : Nat) : rem - rem / 10 ^ places * 10 ^ places = rem % 10 ^ places := by
  rw [Nat.mod_eq_sub_div_mul]

theorem leading_small {rem places : Nat} (small : rem < 10 ^ (places + 1)) : rem / 10 ^ places < 10 := by
  rw [Nat.div_lt_iff_lt_mul (Nat.pow_pos (by decide)), Nat.mul_comm, ← Nat.pow_succ]
  exact small

theorem largest_pow10_found (value fuel places : Nat) (some : 0 < fuel) (small : value < 10 ^ (places + fuel))
    (reached : places = 0 ∨ 10 ^ places ≤ value) :
    ∃ count, largestPow10 value fuel (10 ^ places) (places + 1) = .ok (10 ^ count, count + 1) ∧ value < 10 ^ (count + 1) ∧
      (count = 0 ∨ 10 ^ count ≤ value) := by
  induction fuel generalizing places with
  | zero => exact absurd some (by decide)
  | succ fuel ih =>
      rw [largestPow10, ← Nat.pow_succ]
      split
      case isTrue passed => exact ⟨places, rfl, passed, reached⟩
      case isFalse more =>
        have more : 10 ^ (places + 1) ≤ value := Nat.le_of_not_lt more
        have small : value < 10 ^ (places + 1 + fuel) := by rwa [Nat.add_assoc, Nat.add_comm 1]
        have left : 0 < fuel := by
          by_contra none
          have none : fuel = 0 := by omega
          subst none
          exact absurd small (Nat.not_lt.mpr more)
        exact ih (places + 1) left small (.inr more)

theorem emit_group_threes (decCount groupCount i : Nat) (few : groupCount ≤ 3) (inside : i < decCount) :
    (emitGroup [3] decCount 0 groupCount).getD i false = decide ((i + groupCount) % 3 = 0 ∧ 0 < i + groupCount) := by
  induction decCount generalizing groupCount i with
  | zero => exact absurd inside (Nat.not_lt_zero i)
  | succ decCount ih =>
      have limit : [3].getD 0 0 = 3 := rfl
      rw [emitGroup, limit]
      split
      case isTrue full =>
        have full : groupCount = 3 := by omega
        subst full
        cases i with
        | zero => rfl
        | succ i =>
            rw [List.getD_cons_succ]
            have rest := ih 1 i (by decide) (by omega)
            refine rest.trans ?_
            rw [decide_eq_decide]
            omega
      case isFalse more =>
        cases i with
        | zero =>
            rw [List.getD_cons_zero, eq_comm, decide_eq_false_iff_not]
            omega
        | succ i =>
            rw [List.getD_cons_succ, ih (groupCount + 1) i (by omega) (by omega), decide_eq_decide]
            omega

theorem dec_digits_spaced {groupSep : Char} (visible : groupSep ≠ '\x00') (emit : List Bool) (fuel rem places : Nat)
    (threes : ∀ i ≤ places, emit.getD i false = decide (i % 3 = 0 ∧ 0 < i)) (small : rem < 10 ^ (places + 1))
    (enough : places + 2 ≤ fuel) :
    decDigits groupSep emit fuel (10 ^ places) rem (places + 1) =
      .ok (spaced 3 groupSep ((lowDigits 10 (places + 1) rem).reverse.map (digitChar false))) := by
  obtain ⟨fuel, rfl⟩ : ∃ left, fuel = left + 1 := ⟨fuel - 1, by omega⟩
  induction places generalizing fuel rem with
  | zero =>
      obtain ⟨fuel, rfl⟩ : ∃ left, fuel = left + 1 := ⟨fuel - 1, by omega⟩
      have small : rem < 10 := small
      simp [decDigits, divide, lowDigits, spaced, formatted_digit small, Nat.mod_eq_of_lt small]
  | succ places ih =>
      have positive : 0 < 10 ^ (places + 1) := Nat.pow_pos (by decide)
      have large : 10 ^ (places + 1) > 1 := Nat.one_lt_pow (by omega) (by decide)
      have lead := leading_small small
      obtain ⟨fuel, rfl⟩ : ∃ left, fuel = left + 1 := ⟨fuel - 1, by omega⟩
      have rest := ih (rem % 10 ^ (places + 1)) (fun i inside => threes i (by omega)) (Nat.mod_lt _ positive) fuel (by omega)
      have less : 10 ^ (places + 1) / 10 = 10 ^ places := by rw [Nat.pow_succ, Nat.mul_div_cancel _ (by decide)]
      rw [decDigits, if_pos positive, divide_ok rem positive, bind_ok, leading_rest, less, Nat.add_sub_cancel, rest, bind_ok,
        formatted_digit lead, threes (places + 1) (Nat.le_refl _), low_digits_top 10 (places + 1), Nat.mod_eq_of_lt lead]
      simp only [List.reverse_append, List.reverse_singleton, List.singleton_append, List.map_cons, spaced]
      have length : ((lowDigits 10 (places + 1) (rem % 10 ^ (places + 1))).reverse.map (digitChar false)).length = places + 1 := by simp
      have filled : lowDigits 10 (places + 1) (rem % 10 ^ (places + 1)) ≠ [] := by simp [lowDigits]
      rw [length]
      by_cases third : (places + 1) % 3 = 0
      · simp [visible, large, third, filled]
      · simp [third]

theorem format_dec_spaced {groupSep : Char} (visible : groupSep ≠ '\x00') (fuel value : Nat) (small : value < 2 ^ 128)
    (enough : 41 ≤ fuel) :
    formatDec fuel value groupSep [3] = .ok (spaced 3 groupSep (formatted false .dec 0 value)) := by
  have below : value < 10 ^ 39 := Nat.lt_of_lt_of_le small (by decide)
  have bound : value < 10 ^ (0 + fuel) := Nat.lt_of_lt_of_le below (Nat.pow_le_pow_right (by decide) (by omega))
  obtain ⟨count, found, digits, leading⟩ := largest_pow10_found value fuel 0 (by omega) bound (.inl rfl)
  have short : count ≤ 38 := by
    by_contra long
    have more : 10 ^ 39 ≤ 10 ^ count := Nat.pow_le_pow_right (by decide) (by omega)
    omega
  have found : largestPow10 value fuel 1 1 = .ok (10 ^ count, count + 1) := found
  have table : ∀ i ≤ count, (emitGroup [3] (count + 1) 0 0).getD i false = decide (i % 3 = 0 ∧ 0 < i) :=
    fun i inside => emit_group_threes (count + 1) 0 i (by decide) (by omega)
  rw [formatDec, found, bind_ok, formatted_plain, numeral_low_digits (digitChar false) (by decide) count value digits leading]
  simp only [visible, ne_eq, not_false_eq_true, if_true]
  rw [if_neg (by omega)]
  exact dec_digits_spaced visible _ fuel value count table digits (by omega)

theorem format_frac_truncates (places rem precision : Nat) (small : rem < 10 ^ places) (few : precision ≤ places) :
    ∃ digits : List Nat, formatFrac (10 ^ places) rem precision = .ok (digits.map (digitChar false)) ∧ (∀ d ∈ digits, d < 10) ∧
      digits.length ≤ precision ∧ Nat.ofDigits 10 digits.reverse * 10 ^ (precision - digits.length) = rem / 10 ^ (places - precision) ∧
      (digits = [] ↔ ¬ (precision > 0 ∧ rem > 0)) := by
  induction precision generalizing places rem with
  | zero => exact ⟨[], rfl, by simp, Nat.le_refl 0, by simp [Nat.div_eq_of_lt small], by simp⟩
  | succ precision ih =>
      obtain ⟨places, rfl⟩ : ∃ fewer, places = fewer + 1 := ⟨places - 1, by omega⟩
      have large : 10 ^ (places + 1) > 1 := Nat.one_lt_pow (by omega) (by decide)
      rw [formatFrac]
      split
      case isFalse ended =>
        have done : rem = 0 := by omega
        subst done
        exact ⟨[], rfl, by simp, Nat.zero_le _, by simp, by simp⟩
      case isTrue more =>
        have positive : 0 < 10 ^ places := Nat.pow_pos (by decide)
        have less : 10 ^ (places + 1) / 10 = 10 ^ places := by rw [Nat.pow_succ, Nat.mul_div_cancel _ (by decide)]
        have lead := leading_small small
        obtain ⟨digits, rest, below, length, worth, _⟩ := ih places (rem % 10 ^ places) (Nat.mod_lt _ positive) (by omega)
        refine ⟨rem / 10 ^ places :: digits, ?_, List.forall_mem_cons.mpr ⟨lead, below⟩, Nat.succ_le_succ length, ?_, ?_⟩
        · rw [less, divide_ok rem positive, bind_ok, leading_rest, rest, bind_ok, formatted_digit lead]
          rfl
        · have width : 10 ^ digits.length * 10 ^ (precision - digits.length) = 10 ^ precision := by
            rw [← Nat.pow_add, Nat.add_sub_cancel' length]
          have split := quotient_split rem (show precision ≤ places by omega)
          rw [of_digits_reverse_cons, List.length_cons, Nat.add_sub_add_right, Nat.add_sub_add_right, Nat.add_mul, worth, split,
            Nat.mul_right_comm, width]
        · simp [more.2]

end Digits

section Truth

def Spells (whole decimals : Text) (places : Nat) (value : ℚ) : Prop :=
  ∃ n f : Nat, whole = formatted false .dec 0 n ∧ decimals.length ≤ places ∧ Radix.dec.read decimals = some f ∧
    value = n + f / 10 ^ decimals.length

def pointed (decimalPoint : Char) (decimals : Text) : Text := if decimals = [] then [] else decimalPoint :: decimals

-- A positive balance that would show as zero is shown as smaller than the least number; any other is cut off behind its decimals.
def Truthful (balance : Amount) (places precision : Nat) (thousandsSep decimalPoint : Char) (text : Text) : Prop :=
  if 0 < balance.toNat ∧ balance.toNat < 10 ^ (places - precision) then
    ∃ whole decimals, text = "< ".toList ++ whole ++ pointed decimalPoint decimals ∧
      Spells whole decimals precision (1 / 10 ^ precision)
  else
    ∃ groups decimals, text = [thousandsSep].intercalate groups ++ pointed decimalPoint decimals ∧ InGroups 3 groups ∧
      Spells groups.flatten decimals precision (⌊(balance.toNat : ℚ) / 10 ^ places * 10 ^ precision⌋₊ / 10 ^ precision)

theorem least_text_spelled (precision : Nat) (decimalPoint : Char) :
    ∃ whole decimals, leastText precision decimalPoint = whole ++ pointed decimalPoint decimals ∧
    Spells whole decimals precision (1 / 10 ^ precision) := by
  cases precision with
  | zero => exact ⟨['1'], [], rfl, 1, 0, by decide, Nat.le_refl 0, rfl, by norm_num⟩
  | succ precision =>
      have zeros : List.replicate precision '0' ++ ['1'] = (List.replicate precision 0 ++ [1]).map (digitChar false) := by
        simp [List.map_replicate, digitChar, Nat.digitChar]
      have below : ∀ d ∈ List.replicate precision 0 ++ [1], d < 10 := by
        intro d member
        simp only [List.mem_append, List.mem_replicate, List.mem_singleton] at member
        omega
      have read := read_digits _ below
      rw [← zeros] at read
      refine ⟨['0'], List.replicate precision '0' ++ ['1'], ?_, 0, 1, by decide, by simp, ?_, by simp⟩
      · simp [leastText, pointed]
      · have one : Nat.ofDigits 10 ([1] ++ List.replicate precision 0) = 1 := by
          rw [Nat.ofDigits_append_replicate_zero, Nat.ofDigits_singleton]
        rw [read, List.reverse_append, List.reverse_replicate]
        exact congrArg some one

theorem truncated (balance : Nat) {places precision : Nat} (few : precision ≤ places) :
    ⌊(balance : ℚ) / 10 ^ places * 10 ^ precision⌋₊ = balance / 10 ^ (places - precision) := by
  have power : (10 : ℚ) ^ places = 10 ^ (places - precision) * 10 ^ precision := by rw [← pow_add, Nat.sub_add_cancel few]
  have quotient : (balance : ℚ) / 10 ^ places * 10 ^ precision = (balance : ℚ) / (10 ^ (places - precision) : ℕ) := by
    rw [power]
    push_cast
    field_simp
  rw [quotient, Nat.floor_div_eq_div]

variable (balance : Amount) {places precision : Nat} {thousandsSep : Char} (decimalPoint : Char)

theorem below_precision_iff (within : precision ≤ places) :
    balance.toNat / 10 ^ places = 0 ∧ 0 < balance.toNat % 10 ^ places ∧ balance.toNat % 10 ^ places < 10 ^ places / 10 ^ precision ↔
      0 < balance.toNat ∧ balance.toNat < 10 ^ (places - precision) := by
  have positive : 0 < 10 ^ places := Nat.pow_pos (by decide)
  have less : 10 ^ (places - precision) ≤ 10 ^ places := Nat.pow_le_pow_right (by decide) (Nat.sub_le _ _)
  rw [Nat.pow_div within (by decide), Nat.div_eq_zero_iff_lt positive]
  constructor
  · rintro ⟨small, some, below⟩
    rw [Nat.mod_eq_of_lt small] at some below
    exact ⟨some, below⟩
  · rintro ⟨some, below⟩
    have small := Nat.lt_of_lt_of_le below less
    rw [Nat.mod_eq_of_lt small]
    exact ⟨small, some, below⟩

theorem fraction_spelled (within : precision ≤ places) :
    ∃ decimals : Text, (∀ whole : Text, (if precision > 0 ∧ balance.toNat % 10 ^ places > 0 then do
        let decimals ← formatFrac (10 ^ places) (balance.toNat % 10 ^ places) precision
        .ok (whole ++ decimalPoint :: decimals)
      else .ok whole : Except Fault Text) = .ok (whole ++ pointed decimalPoint decimals)) ∧
      Spells (formatted false .dec 0 (balance.toNat / 10 ^ places)) decimals precision
        (⌊(balance.toNat : ℚ) / 10 ^ places * 10 ^ precision⌋₊ / 10 ^ precision) := by
  have positive : 0 < 10 ^ places := Nat.pow_pos (by decide)
  obtain ⟨digits, returned, below, length, worth, empty⟩ :=
    format_frac_truncates places (balance.toNat % 10 ^ places) precision (Nat.mod_lt _ positive) within
  refine ⟨digits.map (digitChar false), ?_, balance.toNat / 10 ^ places, Nat.ofDigits 10 digits.reverse, rfl, ?_,
    read_digits digits below, ?_⟩
  · intro whole
    split
    case isTrue some =>
      have filled : digits ≠ [] := fun none => empty.mp none some
      rw [returned, bind_ok]
      simp [pointed, filled]
    case isFalse none =>
      rw [empty.mpr none]
      simp [pointed]
  · simpa using length
  · have width : (10 : ℚ) ^ precision = 10 ^ digits.length * 10 ^ (precision - digits.length) := by
      rw [← pow_add, Nat.add_sub_cancel' length]
    have sum := quotient_split balance.toNat within
    rw [← worth] at sum
    rw [truncated balance.toNat within, sum, List.length_map]
    push_cast
    rw [width]
    field_simp
    ring

/-- What is shown of a balance is its value, cut off behind the given number of decimals. -/
theorem balance_text_truthful (few : places ≤ 38) (within : precision ≤ places) (visible : thousandsSep ≠ '\x00') :
    ∃ text, Yields (fun fuel => UInt128Union.formatBalance thousandsSep decimalPoint fuel balance (scaleOf places) precision
        true) text ∧
      Truthful balance places precision thousandsSep decimalPoint text := by
  have positive : 0 < 10 ^ places := Nat.pow_pos (by decide)
  have fine : balance.toNat / 10 ^ places = 0 → 0 < balance.toNat % 10 ^ places → 0 < 10 ^ places / 10 ^ precision :=
    fun _ _ => Nat.div_pos (Nat.pow_le_pow_right (by decide) within) (Nat.pow_pos (by decide))
  have scaled := format_balance_scaled balance places precision true thousandsSep decimalPoint [3] few
  simp only [below_precision_ok _ _ _ fine, below_precision_iff balance within, bind_ok] at scaled
  unfold Truthful
  by_cases small : 0 < balance.toNat ∧ balance.toNat < 10 ^ (places - precision)
  · obtain ⟨whole, decimals, same, spelled⟩ := least_text_spelled precision decimalPoint
    refine ⟨"< ".toList ++ leastText precision decimalPoint, ⟨0, fun fuel _ => ?_⟩, ?_⟩
    · exact (scaled fuel).trans (if_pos (decide_eq_true small))
    · rw [if_pos small, same, ← List.append_assoc]
      exact ⟨whole, decimals, rfl, spelled⟩
  · obtain ⟨decimals, written, spelled⟩ := fraction_spelled balance decimalPoint within
    have filled : formatted false .dec 0 (balance.toNat / 10 ^ places) ≠ [] := padded_ne_nil _ _ _
    obtain ⟨groups, threes, flat, same⟩ := spaced_groups 3 thousandsSep (by decide) _ filled
    refine ⟨[thousandsSep].intercalate groups ++ pointed decimalPoint decimals, ⟨41, fun fuel enough => ?_⟩, ?_⟩
    · have fits : balance.toNat / 10 ^ places < 2 ^ 128 := Nat.lt_of_le_of_lt (Nat.div_le_self _ _) balance.isLt
      have whole := format_dec_spaced visible fuel _ fits enough
      refine (scaled fuel).trans ?_
      rw [decide_eq_false small, if_neg Bool.false_ne_true, if_pos ⟨trivial, by decide⟩, whole, bind_ok, written, same]
    · rw [if_neg small]
      exact ⟨groups, decimals, rfl, threes, flat ▸ spelled⟩

theorem balance_text_sample : ∃ text, Yields (fun fuel => UInt128Union.formatBalance ',' '.' fuel 123456789 (scaleOf 2) 1 true) text ∧
    Truthful 123456789 2 1 ',' '.' text :=
  balance_text_truthful 123456789 '.' (by decide) (by decide) (by decide)

end Truth

example : UInt128Union.formatBalance ',' '.' 41 123456789 (scaleOf 2) 1 true = .ok "1,234,567.8".toList := by
  decide +kernel

end Rai
