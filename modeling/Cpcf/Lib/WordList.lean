import Cpcf.Lib.Word

/-!
Fields of a record in a list of bytes.

A record is the concatenation of its fields, the low byte of each first. `get` takes a field off the front and
leaves the rest, so a record is read by taking its fields one by one, and what was put together is taken apart again
by rewriting.
-/

namespace Cpcf.Lib.WordList

open Cpcf.Lib.Word

def word16 (x : UInt16) : List UInt8 := leBytes 2 x.toNat

def word32 (x : UInt32) : List UInt8 := leBytes 4 x.toNat

def word64 (x : UInt64) : List UInt8 := leBytes 8 x.toNat

def get16 (s : List UInt8) : UInt16 × List UInt8 := (UInt16.ofNat (leValue (s.take 2)), s.drop 2)

def get32 (s : List UInt8) : UInt32 × List UInt8 := (UInt32.ofNat (leValue (s.take 4)), s.drop 4)

def get64 (s : List UInt8) : UInt64 × List UInt8 := (UInt64.ofNat (leValue (s.take 8)), s.drop 8)

@[simp] theorem length_word16 (x : UInt16) : (word16 x).length = 2 := length_leBytes 2 _

@[simp] theorem length_word32 (x : UInt32) : (word32 x).length = 4 := length_leBytes 4 _

@[simp] theorem length_word64 (x : UInt64) : (word64 x).length = 8 := length_leBytes 8 _

theorem leValue_leBytes_of_lt {n v : ℕ} (h : v < 256 ^ n) : leValue (leBytes n v) = v := by
  rw [leValue_leBytes]
  exact Nat.mod_eq_of_lt h

@[simp] theorem get16_word16 (x : UInt16) (r : List UInt8) : get16 (word16 x ++ r) = (x, r) := by
  unfold get16
  rw [List.take_left' (length_word16 x), List.drop_left' (length_word16 x), word16,
    leValue_leBytes_of_lt x.toNat_lt, UInt16.ofNat_toNat]

@[simp] theorem get32_word32 (x : UInt32) (r : List UInt8) : get32 (word32 x ++ r) = (x, r) := by
  unfold get32
  rw [List.take_left' (length_word32 x), List.drop_left' (length_word32 x), word32,
    leValue_leBytes_of_lt x.toNat_lt, UInt32.ofNat_toNat]

@[simp] theorem get64_word64 (x : UInt64) (r : List UInt8) : get64 (word64 x ++ r) = (x, r) := by
  unfold get64
  rw [List.take_left' (length_word64 x), List.drop_left' (length_word64 x), word64,
    leValue_leBytes_of_lt x.toNat_lt, UInt64.ofNat_toNat]

end Cpcf.Lib.WordList
