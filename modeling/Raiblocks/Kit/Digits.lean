import Mathlib.Data.Nat.Digits.Lemmas

set_option autoImplicit false

namespace Kit

abbrev Text := List Char

section Numerals

variable (digit : Nat → Char) (value : Char → Option Nat) (base : Nat)

-- The most significant digit comes first; zero has one digit.
def numeral (n : Nat) : Text := if n = 0 then [digit 0] else ((Nat.digits base n).map digit).reverse

def padded (width n : Nat) : Text := (numeral digit base n).leftpad width (digit 0)

def reading (text : Text) : Option Nat := (text.mapM value).map fun digits => Nat.ofDigits base digits.reverse

variable {value base}

theorem numeral_ne_nil (n : Nat) : numeral digit base n ≠ [] := by
  unfold numeral
  split
  case isTrue => simp
  case isFalse positive => simpa [Nat.digits_eq_nil_iff_eq_zero] using positive

theorem numeral_leading (single : ∀ d, digit d = digit 0 → d < base → d = 0) (large : 1 < base) (n : Nat)
    (leading : (numeral digit base n).head? = some (digit 0)) : n = 0 := by
  unfold numeral at leading
  split at leading
  case isTrue zero => exact zero
  case isFalse positive =>
    have filled : Nat.digits base n ≠ [] := Nat.digits_ne_nil_iff_ne_zero.mpr positive
    rw [List.head?_reverse, List.getLast?_map, List.getLast?_eq_some_getLast filled] at leading
    have zero := single _ (Option.some.inj leading) (Nat.digits_lt_base large (List.getLast_mem filled))
    exact absurd zero (Nat.getLast_digit_ne_zero base positive)

theorem padded_ne_nil (width n : Nat) : padded digit base width n ≠ [] := by
  simp [padded, List.leftpad, numeral_ne_nil]

theorem numeral_digits (large : 1 < base) (n : Nat) :
    ∃ digits : List Nat, numeral digit base n = digits.map digit ∧ (∀ d ∈ digits, d < base) ∧ Nat.ofDigits base digits.reverse = n := by
  by_cases zero : n = 0
  · exact ⟨[0], by simp [numeral, zero], by simpa using by omega, by simp [zero]⟩
  · have below : ∀ d ∈ (Nat.digits base n).reverse, d < base := fun d member => Nat.digits_lt_base large (List.mem_reverse.mp member)
    have worth : Nat.ofDigits base (Nat.digits base n).reverse.reverse = n := by rw [List.reverse_reverse, Nat.ofDigits_digits]
    exact ⟨(Nat.digits base n).reverse, by simp [numeral, zero], below, worth⟩

theorem padded_digits (large : 1 < base) (width n : Nat) :
    ∃ digits : List Nat, padded digit base width n = digits.map digit ∧ (∀ d ∈ digits, d < base) ∧
    Nat.ofDigits base digits.reverse = n := by
  obtain ⟨digits, same, below, worth⟩ := numeral_digits digit large n
  have padding : padded digit base width n = (List.replicate (width - digits.length) 0 ++ digits).map digit := by
    simp [padded, List.leftpad, same]
  have all : ∀ d ∈ List.replicate (width - digits.length) 0 ++ digits, d < base := by
    intro d member
    rcases List.mem_append.mp member with zero | member
    · rw [List.eq_of_mem_replicate zero]
      omega
    · exact below d member
  have worth : Nat.ofDigits base (List.replicate (width - digits.length) 0 ++ digits).reverse = n := by
    rw [List.reverse_append, List.reverse_replicate, Nat.ofDigits_append_replicate_zero, worth]
  exact ⟨_, padding, all, worth⟩

theorem digits_read (inverse : ∀ d < base, value (digit d) = some d) (digits : List Nat) (below : ∀ d ∈ digits, d < base) :
    (digits.map digit).mapM value = some digits := by
  induction digits with
  | nil => rfl
  | cons d digits ih =>
      have rest := ih fun e member => below e (List.mem_cons_of_mem d member)
      simp [inverse d (below d List.mem_cons_self), rest]

theorem reading_padded (large : 1 < base) (inverse : ∀ d < base, value (digit d) = some d) (width n : Nat) :
    reading value base (padded digit base width n) = some n := by
  obtain ⟨digits, same, below, worth⟩ := padded_digits digit large width n
  rw [reading, same, digits_read digit inverse digits below, Option.map_some, worth]

theorem reading_digits (text : Text) (n : Nat) (read : reading value base text = some n) :
    ∃ digits : List Nat, List.Forall₂ (fun character d => value character = some d) text digits ∧
    Nat.ofDigits base digits.reverse = n := by
  obtain ⟨digits, found, worth⟩ := Option.map_eq_some_iff.mp read
  refine ⟨digits, ?_, worth⟩
  clear read worth
  induction text generalizing digits with
  | nil =>
      cases found
      exact .nil
  | cons character text ih =>
      rw [List.mapM_cons] at found
      obtain ⟨d, here, found⟩ := Option.bind_eq_some_iff.mp found
      obtain ⟨rest, others, found⟩ := Option.bind_eq_some_iff.mp found
      cases found
      exact .cons here (ih rest others)

theorem spelled_below (small : ∀ character d, value character = some d → d < base) (text : Text) (digits : List Nat)
    (spelled : List.Forall₂ (fun character d => value character = some d) text digits) : ∀ d ∈ digits, d < base := by
  induction spelled with
  | nil => simp
  | @cons character d _ _ here _ ih => exact List.forall_mem_cons.mpr ⟨small character d here, ih⟩

theorem numeral_length (large : 1 < base) (width n : Nat) (positive : 0 < width) (small : n < base ^ width) :
    (numeral digit base n).length ≤ width := by
  unfold numeral
  split
  case isTrue => exact positive
  case isFalse => simpa using (Nat.digits_length_le_iff large n).mpr small

theorem padded_length (large : 1 < base) (width n : Nat) (positive : 0 < width) (small : n < base ^ width) :
    (padded digit base width n).length = width := by
  have short := numeral_length digit large width n positive small
  simp only [padded, List.leftpad, List.length_append, List.length_replicate]
  omega

end Numerals

def lowDigits (base : Nat) : Nat → Nat → List Nat
  | 0, _ => []
  | count + 1, n => n % base :: lowDigits base count (n / base)

@[simp] theorem low_digits_length (base count n : Nat) : (lowDigits base count n).length = count := by
  induction count generalizing n with
  | zero => rfl
  | succ count ih => simp [lowDigits, ih]

theorem low_digits_below (base count n : Nat) (positive : 0 < base) : ∀ d ∈ lowDigits base count n, d < base := by
  induction count generalizing n with
  | zero => simp [lowDigits]
  | succ count ih => simpa [lowDigits, Nat.mod_lt n positive] using ih (n / base)

theorem of_low_digits (base count n : Nat) : Nat.ofDigits base (lowDigits base count n) = n % base ^ count := by
  induction count generalizing n with
  | zero => simp [lowDigits, Nat.mod_one]
  | succ count ih =>
      rw [lowDigits, Nat.ofDigits_cons, ih, Nat.pow_succ, Nat.mul_comm (base ^ count), Nat.mod_mul]

theorem low_of_digits (base : Nat) (digits : List Nat) (below : ∀ d ∈ digits, d < base) :
    lowDigits base digits.length (Nat.ofDigits base digits) = digits := by
  induction digits with
  | nil => rfl
  | cons d digits ih =>
      have small := below d List.mem_cons_self
      have rest := ih fun e member => below e (List.mem_cons_of_mem d member)
      have last : (d + base * Nat.ofDigits base digits) % base = d := by
        rw [Nat.add_mul_mod_self_left, Nat.mod_eq_of_lt small]
      have others : (d + base * Nat.ofDigits base digits) / base = Nat.ofDigits base digits := by
        rw [Nat.add_mul_div_left d _ (Nat.zero_lt_of_lt small), Nat.div_eq_of_lt small, Nat.zero_add]
      rw [List.length_cons, lowDigits, Nat.ofDigits_cons, last, others, rest]

theorem low_digits_top (base count n : Nat) :
    lowDigits base (count + 1) n = lowDigits base count (n % base ^ count) ++ [n / base ^ count % base] := by
  induction count generalizing n with
  | zero => simp [lowDigits]
  | succ count ih =>
      have first : n % base ^ (count + 1) % base = n % base := Nat.mod_mod_of_dvd n (Dvd.intro_left (base ^ count) rfl)
      have rest : n % base ^ (count + 1) / base = n / base % base ^ count := by
        rw [Nat.pow_succ, Nat.mod_mul_left_div_self]
      have top : n / base / base ^ count = n / base ^ (count + 1) := by
        rw [Nat.div_div_eq_div_mul, Nat.pow_succ, Nat.mul_comm]
      rw [lowDigits, ih, lowDigits, first, rest, top]
      rfl

theorem padded_low_digits (digit : Nat → Char) {base : Nat} (large : 1 < base) (width n : Nat) (positive : 0 < width)
    (small : n < base ^ width) :
    padded digit base width n = (lowDigits base width n).reverse.map digit := by
  obtain ⟨digits, same, below, worth⟩ := padded_digits digit large width n
  have length := padded_length digit large width n positive small
  have low := low_of_digits base digits.reverse fun d member => below d (List.mem_reverse.mp member)
  rw [same, List.length_map] at length
  rw [List.length_reverse, length, worth] at low
  rw [same, low, List.reverse_reverse]

theorem numeral_low_digits (digit : Nat → Char) {base : Nat} (large : 1 < base) (count n : Nat) (small : n < base ^ (count + 1))
    (leading : count = 0 ∨ base ^ count ≤ n) : numeral digit base n = (lowDigits base (count + 1) n).reverse.map digit := by
  unfold numeral
  split
  case isTrue zero =>
    have positive : 0 < base ^ count := Nat.pow_pos (Nat.zero_lt_of_lt large)
    have single : count = 0 := by omega
    subst zero single
    simp [lowDigits]
  case isFalse positive =>
    have most := (Nat.digits_length_le_iff large n).mpr small
    have least : count < (Nat.digits base n).length := by
      rcases leading with rfl | bound
      · exact List.length_pos_iff.mpr (Nat.digits_ne_nil_iff_ne_zero.mpr positive)
      · exact (Nat.lt_digits_length_iff large n).mpr bound
    have length : (Nat.digits base n).length = count + 1 := by omega
    have digits := low_of_digits base (Nat.digits base n) fun d member => Nat.digits_lt_base large member
    rw [length, Nat.ofDigits_digits] at digits
    rw [digits, List.map_reverse]

theorem digits_folded (base : Nat) (digits : List Nat) :
    digits.foldl (fun n d => n * base + d) 0 = Nat.ofDigits base digits.reverse := by
  rw [Nat.ofDigits_eq_foldr, List.foldr_reverse]
  congr 1
  funext n d
  simp [Nat.mul_comm, Nat.add_comm]

theorem digits_wrapped (base bound : Nat) (digits : List Nat) (n : Nat) :
    digits.foldl (fun n d => (n * base + d) % bound) (n % bound) = digits.foldl (fun n d => n * base + d) n % bound := by
  induction digits generalizing n with
  | nil => rfl
  | cons d digits ih =>
      have step : (n % bound * base + d) % bound = (n * base + d) % bound := by
        rw [Nat.add_mod, Nat.mod_mul_mod, ← Nat.add_mod]
      rw [List.foldl_cons, List.foldl_cons, step, ih]

section Order

theorem of_digits_reverse_cons (base d : Nat) (digits : List Nat) :
    Nat.ofDigits base (d :: digits).reverse = Nat.ofDigits base digits.reverse + base ^ digits.length * d := by
  rw [List.reverse_cons, Nat.ofDigits_append, Nat.ofDigits_singleton, List.length_reverse]

theorem of_digits_reverse_lt {base : Nat} (large : 1 < base) (digits : List Nat) (below : ∀ d ∈ digits, d < base) :
    Nat.ofDigits base digits.reverse < base ^ digits.length := by
  have bound := Nat.ofDigits_lt_base_pow_length large fun d member => below d (List.mem_reverse.mp member)
  rwa [List.length_reverse] at bound

theorem leading_digit_lt_iff (width d e n m : Nat) (below : n < width) (below' : m < width) :
    n + width * d < m + width * e ↔ d < e ∨ d = e ∧ n < m := by
  rcases Nat.lt_trichotomy d e with less | same | more
  · have step : width * (d + 1) ≤ width * e := Nat.mul_le_mul_left width less
    rw [Nat.mul_succ] at step
    exact iff_of_true (by omega) (Or.inl less)
  · subst same
    simp
  · have step : width * (e + 1) ≤ width * d := Nat.mul_le_mul_left width more
    rw [Nat.mul_succ] at step
    exact iff_of_false (by omega) (by omega)

variable {digit : Nat → Char} {base : Nat} (rising : ∀ d < base, ∀ e < base, digit d < digit e ↔ d < e)
include rising

theorem rising_inj (d e : Nat) (small : d < base) (small' : e < base) : digit d = digit e ↔ d = e := by
  constructor
  · intro equal
    have less := (rising d small e small').not.mp (equal ▸ Char.lt_irrefl _)
    have more := (rising e small' d small).not.mp (equal ▸ Char.lt_irrefl _)
    omega
  · exact congrArg digit

theorem digit_texts_lt_iff (large : 1 < base) (left right : List Nat) (same : left.length = right.length) (below : ∀ d ∈ left, d < base)
    (below' : ∀ d ∈ right, d < base) :
    left.map digit < right.map digit ↔ Nat.ofDigits base left.reverse < Nat.ofDigits base right.reverse := by
  induction left generalizing right with
  | nil =>
      obtain rfl := List.length_eq_zero_iff.mp same.symm
      simp
  | cons d left ih =>
      obtain ⟨e, right, rfl⟩ := List.exists_cons_of_length_eq_add_one same.symm
      have length : left.length = right.length := Nat.succ.inj same
      obtain ⟨small, rest⟩ := List.forall_mem_cons.mp below
      obtain ⟨small', rest'⟩ := List.forall_mem_cons.mp below'
      have bound := of_digits_reverse_lt large left rest
      have bound' := of_digits_reverse_lt large right rest'
      rw [← length] at bound'
      rw [of_digits_reverse_cons, of_digits_reverse_cons, ← length, leading_digit_lt_iff _ _ _ _ _ bound bound',
        List.map_cons, List.map_cons, List.cons_lt_cons_iff, rising d small e small', rising_inj rising d e small small',
        ih right length rest rest']

end Order

section Groups

variable {α : Type} (size : Nat) (separator : α)

def InGroups (groups : List (List α)) : Prop :=
  ∃ (first : List α) (rest : List (List α)), groups = first :: rest ∧ 1 ≤ first.length ∧ first.length ≤ size ∧
    ∀ group ∈ rest, group.length = size

def spaced : List α → List α
  | [] => []
  | a :: rest => if rest ≠ [] ∧ rest.length % size = 0 then a :: separator :: spaced rest else a :: spaced rest

theorem full_groups_length (groups : List (List α)) (full : ∀ group ∈ groups, group.length = size) :
    groups.flatten.length % size = 0 := by
  induction groups with
  | nil => exact Nat.zero_mod size
  | cons group groups ih =>
      rw [List.forall_mem_cons] at full
      rw [List.flatten_cons, List.length_append, full.1, Nat.add_mod_left, ih full.2]

theorem spaced_groups (positive : 0 < size) (text : List α) (filled : text ≠ []) :
    ∃ groups : List (List α), InGroups size groups ∧ groups.flatten = text ∧
      spaced size separator text = [separator].intercalate groups := by
  induction text with
  | nil => exact absurd rfl filled
  | cons a text ih =>
      by_cases last : text = []
      · subst last
        exact ⟨[[a]], ⟨[a], [], rfl, Nat.le_refl 1, positive, by simp⟩, rfl, by simp [spaced]⟩
      obtain ⟨_, ⟨first, rest, rfl, nonempty, most, full⟩, flat, same⟩ := ih last
      have others := full_groups_length size rest full
      have length : text.length = first.length + rest.flatten.length := by rw [← flat, List.flatten_cons, List.length_append]
      rw [spaced, same]
      split
      case isTrue left =>
        -- What is left fills its first group, so a new one starts.
        refine ⟨[a] :: first :: rest, ⟨[a], first :: rest, rfl, Nat.le_refl 1, positive, ?_⟩, ?_, ?_⟩
        · have multiple : first.length % size = 0 := by
            have left := left.2
            rwa [length, Nat.add_mod, others, Nat.add_zero, Nat.mod_mod] at left
          have whole : first.length = size := by
            rcases Nat.lt_or_ge first.length size with short | long
            · rw [Nat.mod_eq_of_lt short] at multiple
              omega
            · omega
          exact List.forall_mem_cons.mpr ⟨whole, full⟩
        · rw [← flat]
          rfl
        · rw [List.intercalate_cons_cons]
          rfl
      case isFalse inside =>
        have short : first.length < size := by
          apply Nat.lt_of_le_of_ne most
          intro whole
          apply inside
          refine ⟨last, ?_⟩
          rw [length, whole, Nat.add_mod_left, others]
        refine ⟨(a :: first) :: rest, ⟨a :: first, rest, rfl, by simp, short, full⟩, ?_, ?_⟩
        · rw [← flat]
          rfl
        · cases rest with
          | nil => simp
          | cons next rest => simp [List.intercalate_cons_cons]

end Groups

end Kit
