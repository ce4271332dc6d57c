import Mathlib.Data.List.Induction
import Mathlib.Tactic.Ring

set_option autoImplicit false

namespace Kit

abbrev Bytes := List UInt8

def bytesBE : Nat → Nat → Bytes
  | 0, _ => []
  | n + 1, x => bytesBE n (x / 256) ++ [UInt8.ofNat (x % 256)]

def natBE (bytes : Bytes) : Nat := bytes.foldl (fun acc byte => acc * 256 + byte.toNat) 0

@[simp] theorem bytes_be_length (n x : Nat) : (bytesBE n x).length = n := by
  induction n generalizing x with
  | zero => rfl
  | succ n ih => simp [bytesBE, ih]

theorem nat_be_append (bytes : Bytes) (last : UInt8) : natBE (bytes ++ [last]) = natBE bytes * 256 + last.toNat := by
  simp [natBE]

theorem nat_be_bytes_be (n x : Nat) : natBE (bytesBE n x) = x % 256 ^ n := by
  induction n generalizing x with
  | zero => simp [bytesBE, natBE, Nat.mod_one]
  | succ n ih =>
      have low : (UInt8.ofNat (x % 256)).toNat = x % 256 :=
        UInt8.toNat_ofNat_of_lt' (Nat.mod_lt x (by decide))
      rw [bytesBE, nat_be_append, ih, low, Nat.pow_succ, Nat.mul_comm (256 ^ n), Nat.mod_mul]
      omega

theorem bytes_be_nat_be (bytes : Bytes) : bytesBE bytes.length (natBE bytes) = bytes := by
  induction bytes using List.reverseRecOn with
  | nil => rfl
  | append_singleton bytes last ih =>
      have small := last.toNat_lt
      have high : (natBE bytes * 256 + last.toNat) / 256 = natBE bytes := by omega
      have low : (natBE bytes * 256 + last.toNat) % 256 = last.toNat := by omega
      rw [List.length_append, List.length_singleton, nat_be_append, bytesBE, high, low, ih, UInt8.ofNat_toNat]

theorem nat_be_lt (bytes : Bytes) : natBE bytes < 256 ^ bytes.length := by
  induction bytes using List.reverseRecOn with
  | nil => simp [natBE]
  | append_singleton bytes last ih =>
      have small := last.toNat_lt
      rw [nat_be_append, List.length_append, List.length_singleton, Nat.pow_succ]
      omega

def wordBytes (n : Nat) {w : Nat} (x : BitVec w) : Bytes := bytesBE n x.toNat

def bytesWord (w : Nat) (bytes : Bytes) : BitVec w := BitVec.ofNat w (natBE bytes)

@[simp] theorem word_bytes_length (n : Nat) {w : Nat} (x : BitVec w) : (wordBytes n x).length = n :=
  bytes_be_length n x.toNat

theorem pow_width (n : Nat) : 256 ^ n = 2 ^ (8 * n) := by
  rw [Nat.pow_mul]

theorem bytes_word_word_bytes (n w : Nat) (x : BitVec w) (width : w = 8 * n) :
    bytesWord w (wordBytes n x) = x := by
  subst width
  have small : x.toNat < 256 ^ n := by
    rw [pow_width]
    exact x.isLt
  rw [bytesWord, wordBytes, nat_be_bytes_be, Nat.mod_eq_of_lt small, BitVec.ofNat_toNat, BitVec.setWidth_eq]

theorem word_bytes_bytes_word (w : Nat) (bytes : Bytes) (width : w = 8 * bytes.length) :
    wordBytes bytes.length (bytesWord w bytes) = bytes := by
  subst width
  have small := nat_be_lt bytes
  rw [pow_width] at small
  rw [wordBytes, bytesWord, BitVec.toNat_ofNat, Nat.mod_eq_of_lt small, bytes_be_nat_be]

theorem word_bytes_injective (n w : Nat) (x y : BitVec w) (width : w = 8 * n)
    (same : wordBytes n x = wordBytes n y) : x = y := by
  rw [← bytes_word_word_bytes n w x width, same, bytes_word_word_bytes n w y width]

theorem word_append_injective (n w : Nat) (x y : BitVec w) (xs ys : Bytes) (width : w = 8 * n)
    (same : wordBytes n x ++ xs = wordBytes n y ++ ys) : x = y ∧ xs = ys := by
  have parts := List.append_inj same (by simp)
  exact ⟨word_bytes_injective n w x y width parts.1, parts.2⟩

-- `rai::read` style: a short stream is an error, otherwise the word is consumed.
def readWord (n w : Nat) (stream : Bytes) : Option (BitVec w × Bytes) :=
  if n ≤ stream.length then some (bytesWord w (stream.take n), stream.drop n) else none

theorem read_word_written (n w : Nat) (x : BitVec w) (rest : Bytes) (width : w = 8 * n) :
    readWord n w (wordBytes n x ++ rest) = some (x, rest) := by
  have enough : n ≤ (wordBytes n x ++ rest).length := by simp
  rw [readWord, if_pos enough, List.take_left' (word_bytes_length n x),
    List.drop_left' (word_bytes_length n x), bytes_word_word_bytes n w x width]

theorem read_word_append (n w : Nat) (stream rest : Bytes) (enough : n ≤ stream.length) :
    readWord n w (stream ++ rest) = some (bytesWord w (stream.take n), stream.drop n ++ rest) := by
  rw [readWord, if_pos (by simp; omega), List.take_append_of_le_length enough, List.drop_append_of_le_length enough]

-- Integers copied straight from memory are little-endian on the supported machines.
def wordBytesLE (n : Nat) {w : Nat} (x : BitVec w) : Bytes := (wordBytes n x).reverse

def readWordLE (n w : Nat) (stream : Bytes) : Option (BitVec w × Bytes) :=
  if n ≤ stream.length then some (bytesWord w (stream.take n).reverse, stream.drop n) else none

@[simp] theorem word_bytes_le_length (n : Nat) {w : Nat} (x : BitVec w) : (wordBytesLE n x).length = n := by
  simp [wordBytesLE]

theorem read_word_le_written (n w : Nat) (x : BitVec w) (rest : Bytes) (width : w = 8 * n) :
    readWordLE n w (wordBytesLE n x ++ rest) = some (x, rest) := by
  have enough : n ≤ (wordBytesLE n x ++ rest).length := by simp
  rw [readWordLE, if_pos enough, List.take_left' (word_bytes_le_length n x),
    List.drop_left' (word_bytes_le_length n x), wordBytesLE, List.reverse_reverse,
    bytes_word_word_bytes n w x width]

theorem read_word_le_append (n w : Nat) (stream rest : Bytes) (enough : n ≤ stream.length) :
    readWordLE n w (stream ++ rest) = some (bytesWord w (stream.take n).reverse, stream.drop n ++ rest) := by
  rw [readWordLE, if_pos (by simp; omega), List.take_append_of_le_length enough, List.drop_append_of_le_length enough]

end Kit
