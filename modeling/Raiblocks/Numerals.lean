import Mathlib.Data.List.TakeWhile
import Raiblocks.Amounts

set_option autoImplicit false

namespace Rai

open Kit

inductive Thrown where
  | runtimeError
  | logicError
deriving DecidableEq, Repr

def isSpace (character : Char) : Bool := character = ' ' || (9 ≤ character.toNat && character.toNat ≤ 13)

def isDigit (character : Char) : Bool := (Radix.dec.value character).isSome

structure Scanned where
  negative : Bool
  magnitude : Nat
  converted : Nat

-- Blanks, a sign and digits; what follows is left unread.
def scanDecimal (text : Text) : Option Scanned :=
  let start := text.dropWhile isSpace
  let body := if start.head? = some '-' ∨ start.head? = some '+' then start.tail else start
  let digits := body.takeWhile isDigit
  if digits = [] then none
  else (Radix.dec.read digits).map fun magnitude => ⟨start.head? = some '-', magnitude, text.length - body.length + digits.length⟩

-- The number and how many characters were converted. `std::invalid_argument` and `std::out_of_range` are both logic errors.
def stoull (text : Text) : Except Thrown (Nat × Nat) :=
  match scanDecimal text with
  | none => .error .logicError
  | some scanned =>
      if 2 ^ 64 ≤ scanned.magnitude then .error .logicError
      else .ok (if scanned.negative then (2 ^ 64 - scanned.magnitude) % 2 ^ 64 else scanned.magnitude, scanned.converted)

-- `unsigned long` has 64 bits.
def stoul : Text → Except Thrown (Nat × Nat) := stoull

def stoi (text : Text) : Except Thrown Int :=
  match scanDecimal text with
  | none => .error .logicError
  | some scanned =>
      let value : Int := if scanned.negative then -scanned.magnitude else scanned.magnitude
      if -2 ^ 31 ≤ value ∧ value < 2 ^ 31 then .ok value else .error .logicError

def decimalText (number : Nat) : Text := formatted false .dec 0 number

def integerText (number : Int) : Text := if number < 0 then '-' :: decimalText number.natAbs else decimalText number.natAbs

-- The error flag and the port, which is set in either case. The source compares the number of converted characters with
-- the largest port, not the port.
def parsePort (text : Text) : Except Thrown (Bool × BitVec 16) := do
  let number ← stoul text
  .ok (number.2 ≠ text.length || number.2 > 65535, BitVec.ofNat 16 number.1)

def rfind (character : Char) (text : Text) : Option Nat :=
  if character ∈ text then some (text.length - 1 - text.reverse.idxOf character) else none

def Numeral (text : Text) (value : Nat) : Prop := text ≠ [] ∧ Radix.dec.read text = some value

theorem digit_code (character : Char) (digit : Nat) (known : Radix.dec.value character = some digit) :
    48 ≤ character.toNat ∧ character.toNat ≤ 57 := by
  unfold Radix.value at known
  split at known
  · next range => exact range
  · simp at known

theorem digit_unmarked (character : Char) (digit : Nat) (known : Radix.dec.value character = some digit) :
    isDigit character = true ∧ isSpace character = false ∧ character ≠ '-' ∧ character ≠ '+' ∧ character ≠ ':' := by
  obtain ⟨low, high⟩ := digit_code character digit known
  refine ⟨by rw [isDigit, known]; rfl, ?_, ?_, ?_, ?_⟩
  · have blank : character ≠ ' ' := by
      rintro rfl
      exact absurd low (by decide)
    have few : ¬ character.toNat ≤ 13 := by omega
    simp [isSpace, blank, few]
  all_goals
    rintro rfl
    revert low high
    decide

theorem numeral_digits_known {text : Text} {value : Nat} (numeral : Numeral text value) :
    ∀ character ∈ text, ∃ digit, Radix.dec.value character = some digit := by
  obtain ⟨digits, spelled, worth⟩ := reading_digits text value numeral.2
  clear numeral worth
  induction spelled with
  | nil => simp
  | @cons character digit _ _ here _ ih => exact List.forall_mem_cons.mpr ⟨⟨digit, here⟩, ih⟩

theorem numeral_taken {text : Text} {value : Nat} (numeral : Numeral text value) : text.takeWhile isDigit = text := by
  refine List.takeWhile_eq_self_iff.mpr fun character member => ?_
  obtain ⟨digit, known⟩ := numeral_digits_known numeral character member
  exact (digit_unmarked character digit known).1

theorem scan_numeral {text : Text} {value : Nat} (numeral : Numeral text value) :
    scanDecimal text = some ⟨false, value, text.length⟩ := by
  obtain ⟨character, rest, rfl⟩ := List.exists_cons_of_ne_nil numeral.1
  obtain ⟨digit, here⟩ := numeral_digits_known numeral character List.mem_cons_self
  obtain ⟨_, unblank, minus, plus, _⟩ := digit_unmarked character digit here
  have start : (character :: rest).dropWhile isSpace = character :: rest := by
    rw [List.dropWhile_cons_of_neg (by simp [unblank])]
  have signed : ¬ ((character :: rest).head? = some '-' ∨ (character :: rest).head? = some '+') := by simp [minus, plus]
  rw [scanDecimal, start, if_neg signed, numeral_taken numeral, if_neg (List.cons_ne_nil _ _), numeral.2]
  simp [minus]

theorem stoul_numeral {text : Text} {value : Nat} (numeral : Numeral text value) :
    stoul text = if 2 ^ 64 ≤ value then .error .logicError else .ok (value, text.length) := by
  rw [stoul, stoull, scan_numeral numeral]
  rfl

theorem scan_negative {text : Text} {value : Nat} (numeral : Numeral text value) :
    scanDecimal ('-' :: text) = some ⟨true, value, text.length + 1⟩ := by
  have start : ('-' :: text).dropWhile isSpace = '-' :: text := List.dropWhile_cons_of_neg (by decide)
  have signed : ('-' :: text).head? = some '-' ∨ ('-' :: text).head? = some '+' := Or.inl rfl
  have length : text.length + 1 - text.length + text.length = text.length + 1 := by omega
  rw [scanDecimal, start, if_pos signed, List.tail_cons, numeral_taken numeral, if_neg numeral.1, numeral.2, List.length_cons, length]
  rfl

theorem stoi_numeral {text : Text} {value : Nat} (numeral : Numeral text value) (small : value < 2 ^ 31) :
    stoi text = .ok (value : Int) := by
  rw [stoi, scan_numeral numeral]
  have range : -2 ^ 31 ≤ (value : Int) ∧ (value : Int) < 2 ^ 31 := by omega
  exact if_pos range

theorem decimal_numeral (number : Nat) : Numeral (decimalText number) number :=
  ⟨formatted_ne_nil false .dec 0 number, formatted_read false .dec 0 number⟩

theorem stoi_integer (number : Int) (low : -2 ^ 31 ≤ number) (high : number < 2 ^ 31) : stoi (integerText number) = .ok number := by
  have numeral := decimal_numeral number.natAbs
  rw [integerText]
  split
  · next negative =>
      have same : -(number.natAbs : Int) = number := by omega
      rw [stoi, scan_negative numeral]
      exact (if_pos (same.symm ▸ ⟨low, high⟩)).trans (congrArg Except.ok same)
  · next positive =>
      have same : (number.natAbs : Int) = number := by omega
      rw [stoi_numeral numeral (by omega), same]

theorem rfind_last (before : Text) (character : Char) (rest : Text) (later : character ∉ rest) :
    rfind character (before ++ character :: rest) = some before.length := by
  have index : (before ++ character :: rest).reverse.idxOf character = rest.length := by
    rw [List.reverse_append, List.reverse_cons, List.append_assoc, List.idxOf_append_of_notMem (by simpa using later)]
    simp
  rw [rfind, if_pos (by simp), index]
  simp only [List.length_append, List.length_cons, Option.some.injEq]
  omega

def portText (text : Text) : Text := (rfind ':' text).elim [] fun position => text.drop (position + 1)

theorem port_text_last (before rest : Text) (later : ':' ∉ rest) : portText (before ++ ':' :: rest) = rest := by
  rw [portText, rfind_last before ':' rest later]
  simp

theorem numeral_no_colon {text : Text} {value : Nat} (numeral : Numeral text value) : ':' ∉ text := by
  intro member
  obtain ⟨digit, known⟩ := numeral_digits_known numeral ':' member
  exact (digit_unmarked ':' digit known).2.2.2.2 rfl

theorem parse_port_numeral {text : Text} {value : Nat} (numeral : Numeral text value) (port : BitVec 16) :
    parsePort text = .ok (false, port) ↔ value < 2 ^ 64 ∧ text.length ≤ 65535 ∧ BitVec.ofNat 16 value = port := by
  rw [parsePort, stoul_numeral numeral]
  by_cases large : 2 ^ 64 ≤ value
  · rw [if_pos large]
    exact iff_of_false (fun thrown => nomatch thrown) fun fits => Nat.not_lt.mpr large fits.1
  · rw [if_neg large, ← Nat.not_le, and_iff_right large]
    show Except.ok (decide (text.length ≠ text.length) || decide (text.length > 65535), BitVec.ofNat 16 value) = .ok (false, port) ↔ _
    rw [Except.ok.injEq, Prod.mk.injEq, Bool.or_eq_false_iff, decide_eq_false_iff_not, decide_eq_false_iff_not, not_not,
      and_iff_right rfl, not_lt]

theorem short_port {text : Text} {value : Nat} (numeral : Numeral text value) (plain : ¬ LeadingZero text) (small : value < 2 ^ 16) :
    text.length ≤ 65535 := by
  by_contra long
  have large := decimal_length text value numeral.2 numeral.1 plain 5 (by omega) (by decide)
  omega

end Rai
