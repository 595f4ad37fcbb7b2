/-! Bytes and the big-endian words in them.

A class file is a sequence of bytes in which every number stands most significant
byte first. Reads at a position answer `none` where the word would run past the end;
`word_high_low` and `high_word`, `low_word` say that splitting a word and joining its
bytes undo each other. -/
namespace ClassCatalog

abbrev Bytes := Array UInt8

/-! ### Words -/

def word (hi lo : UInt8) : UInt16 := UInt16.ofNat (hi.toNat * 256 + lo.toNat)

def high (w : UInt16) : UInt8 := UInt8.ofNat (w.toNat / 256)

def low (w : UInt16) : UInt8 := UInt8.ofNat w.toNat

theorem word_toNat (hi lo : UInt8) : (word hi lo).toNat = hi.toNat * 256 + lo.toNat := by
  have h := hi.toNat_lt
  have l := lo.toNat_lt
  rw [word, UInt16.toNat_ofNat']
  exact Nat.mod_eq_of_lt (by omega)

theorem word_high_low (w : UInt16) : word (high w) (low w) = w := by
  apply UInt16.toNat_inj.mp
  have h := w.toNat_lt
  rw [word_toNat, high, low, UInt8.toNat_ofNat', UInt8.toNat_ofNat']
  omega

theorem high_word (hi lo : UInt8) : high (word hi lo) = hi := by
  apply UInt8.toNat_inj.mp
  have h := hi.toNat_lt
  have l := lo.toNat_lt
  rw [high, word_toNat, UInt8.toNat_ofNat']
  omega

theorem low_word (hi lo : UInt8) : low (word hi lo) = lo := by
  apply UInt8.toNat_inj.mp
  have l := lo.toNat_lt
  rw [low, word_toNat, UInt8.toNat_ofNat']
  omega

/-- The two bytes of a word as they stand in a class file. -/
def wordBytes (w : UInt16) : List UInt8 := [high w, low w]

def longBytes (n : UInt32) : List UInt8 :=
  wordBytes (UInt16.ofNat (n.toNat / 65536)) ++ wordBytes (UInt16.ofNat n.toNat)

/-- A 32-bit number read as two's complement. -/
def signed (n : UInt32) : Int :=
  if n.toNat < 2147483648 then n.toNat else (n.toNat : Int) - 4294967296

/-! ### Reading and writing at a position -/

namespace Bytes

def word? (b : Bytes) (pos : Nat) : Option UInt16 :=
  match b[pos]?, b[pos + 1]? with
  | some hi, some lo => some (word hi lo)
  | _, _ => none

def long? (b : Bytes) (pos : Nat) : Option UInt32 :=
  match b.word? pos, b.word? (pos + 2) with
  | some hi, some lo => some (UInt32.ofNat (hi.toNat * 65536 + lo.toNat))
  | _, _ => none

/-- The `length` bytes from `start` on, if there are so many. -/
def slice? (b : Bytes) (start length : Nat) : Option Bytes :=
  if start + length ≤ b.size then some (b.extract start (start + length)) else none

/-- `b` with the `length` bytes from `start` on replaced by `new`. -/
def splice (b : Bytes) (start length : Nat) (new : List UInt8) : Bytes :=
  b.extract 0 start ++ new.toArray ++ b.extract (start + length) b.size

def setWord (b : Bytes) (pos : Nat) (w : UInt16) : Bytes := b.splice pos 2 (wordBytes w)

def setLong (b : Bytes) (pos : Nat) (n : UInt32) : Bytes := b.splice pos 4 (longBytes n)

theorem word?_eq_some_iff (b : Bytes) (p : Nat) : (b.word? p).isSome ↔ p + 2 ≤ b.size := by
  unfold word?
  by_cases h : p + 2 ≤ b.size
  · have h0 : p < b.size := by omega
    have h1 : p + 1 < b.size := by omega
    simp [h0, h1, h]
  · have h1 : b[p + 1]? = none := Array.getElem?_eq_none (by omega)
    rw [h1]
    cases b[p]? <;> simp [h]

theorem slice?_size {b s : Bytes} {start length : Nat} (h : b.slice? start length = some s) :
    s.size = length := by
  unfold slice? at h
  split at h
  · cases h
    simp only [Array.size_extract]
    omega
  · cases h

end Bytes
end ClassCatalog
