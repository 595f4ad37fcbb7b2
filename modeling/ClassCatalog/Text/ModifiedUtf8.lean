import ClassCatalog.Text.Encoding
import ClassCatalog.Text.Utf8

/-! Modified UTF-8.

A UTF8 constant is ordinary UTF-8 or the modified form, in which the null character
takes the two bytes C0 80 and a character above U+FFFF is written as its two
surrogates, three bytes each. A string that is UTF-8 as a whole is taken as such;
otherwise the whole of it has to be in the modified form, where a raw null and the
four-byte sequences have no place.

Every sequence of two bytes and more stands for a character above 127, but for C0 80, which stands for null.
So a text made of the characters from 1 to 127 is decoded from its own bytes only (`eq_ascii_of_decode`). No text
has more characters than bytes (`length_le_of_decode`). -/
namespace ClassCatalog.Text

namespace ModifiedUtf8
open Utf8

def isHighSurrogate (n : Nat) : Bool := 0xD800 ≤ n && n ≤ 0xDBFF

def isLowSurrogate (n : Nat) : Bool := 0xDC00 ≤ n && n ≤ 0xDFFF

/-- The character written as two surrogates. -/
def combine (hi lo : Nat) : Char := Char.ofNat (0x10000 + (hi - 0xD800) * 1024 + (lo - 0xDC00))

/-- The modified form alone. -/
def decodeStrict : List UInt8 → Option (List Char)
  | [] => some []
  | a :: rest =>
    if a == 0 then none
    else if a < 0x80 then (decodeStrict rest).map (Char.ofNat a.toNat :: ·)
    else match rest with
      | [] => none
      | b :: rest =>
        if a == 0xC0 && b == 0x80 then (decodeStrict rest).map (Char.ofNat 0 :: ·)
        else match pair? a b with
        | some c => (decodeStrict rest).map (c :: ·)
        | none => match rest with
          | [] => none
          | c :: rest => match unit? a b c with
            | none => none
            | some n =>
              if !isSurrogate n then (decodeStrict rest).map (Char.ofNat n :: ·)
              else match rest with
                | d :: e :: f :: rest => match unit? d e f with
                  | some m =>
                    if isHighSurrogate n && isLowSurrogate m then
                      (decodeStrict rest).map (combine n m :: ·)
                    else none
                  | none => none
                | _ => none

def decode (bytes : List UInt8) : Option String :=
  match Utf8.decode bytes with
  | some cs => some (String.ofList cs)
  | none => (decodeStrict bytes).map String.ofList

/-! ### Examples: null, a surrogate pair, a lone surrogate, a mixture of the forms -/

example : decode [0x41, 0xC0, 0x80] = some "A\x00" := by decide +kernel
example : decode [0xED, 0xA0, 0xBD, 0xED, 0xB8, 0x80] = some "😀" := by decide +kernel
example : decode [0xED, 0xA0, 0xBD, 0x41] = none := by decide +kernel
example : decode [0xF0, 0x9F, 0x98, 0x80] = some "😀" := by decide +kernel
example : decode [0xF0, 0x9F, 0x98, 0x80, 0xC0, 0x80] = none := by decide +kernel

end ModifiedUtf8

/-! ### What sequences stand for -/

namespace Utf8
variable {a b c d : UInt8} {x : Char} {n : Nat}

theorem toNat_ofNat_of_scalar (h : n < 0xD800 ∨ 0xDFFF < n ∧ n < 0x110000) : (Char.ofNat n).toNat = n := by
  rw [Char.ofNat, dif_pos h]
  rfl

theorem lt_of_pair? (h : pair? a b = some x) : 127 < x.toNat := by
  unfold pair? at h
  split at h
  · rename_i hrange
    cases h
    simp only [Bool.and_eq_true, decide_eq_true_eq, UInt8.le_iff_toNat_le] at hrange
    obtain ⟨⟨hlow, hhigh⟩, -⟩ := hrange
    have hlow : 194 ≤ a.toNat := hlow
    have hhigh : a.toNat ≤ 223 := hhigh
    have hbits : bits b < 64 := Nat.mod_lt _ (by decide)
    rw [toNat_ofNat_of_scalar (by omega)]
    omega
  · cases h

theorem of_unit? (h : unit? a b c = some n) : 0x800 ≤ n ∧ n < 0x10000 := by
  unfold unit? at h
  split at h
  · rename_i hrange
    simp only [Bool.and_eq_true, decide_eq_true_eq, UInt8.le_iff_toNat_le] at hrange
    have hhigh : a.toNat ≤ 239 := hrange.1.1.2
    have hb : bits b < 64 := Nat.mod_lt _ (by decide)
    have hc : bits c < 64 := Nat.mod_lt _ (by decide)
    dsimp only at h
    split at h
    · cases h
      omega
    · cases h
  · cases h

/-- A unit that is no surrogate is a character. -/
theorem lt_of_unit? (h : unit? a b c = some n) (hs : isSurrogate n = false) : 127 < (Char.ofNat n).toNat := by
  have hn := of_unit? h
  simp only [isSurrogate, Bool.and_eq_false_iff, decide_eq_false_iff_not] at hs
  rw [toNat_ofNat_of_scalar (by omega)]
  omega

theorem lt_of_triple? (h : triple? a b c = some x) : 127 < x.toNat := by
  obtain ⟨n, hn, hx⟩ := Option.bind_eq_some_iff.mp h
  split at hx
  · cases hx
  · rename_i hs
    cases hx
    exact lt_of_unit? hn (Bool.eq_false_iff.mpr hs)

theorem lt_of_quad? (h : quad? a b c d = some x) : 127 < x.toNat := by
  unfold quad? at h
  split at h
  · dsimp only at h
    split at h
    · rename_i hn
      cases h
      simp only [Bool.and_eq_true, decide_eq_true_eq] at hn
      rw [toNat_ofNat_of_scalar (by omega)]
      omega
    · cases h
  · cases h

end Utf8

/-! ### Sequence by sequence -/

variable {bytes tail : List UInt8} {cs : List Char} {a : UInt8} {x : Char} {rest : Option (List Char)}

/-- A first character that is not in ASCII. -/
theorem not_ascii_of_map (h : rest.map (x :: ·) = some cs) (hx : ¬ IsAscii x) : ¬ ∀ c ∈ cs, IsAscii c := by
  obtain ⟨tail, _, rfl⟩ := Option.map_eq_some_iff.mp h
  exact fun hcs => hx (hcs x (List.mem_cons_self ..))

theorem not_ascii_of_lt (h : 127 < x.toNat) : ¬ IsAscii x := fun hx => absurd hx.2 (by omega)

/-- A first byte that stands for itself. -/
theorem cons_of_map (h : rest.map (Char.ofNat a.toNat :: ·) = some cs) (ha : a < 0x80)
    (hcs : ∀ c ∈ cs, IsAscii c)
    (ih : ∀ {cs}, rest = some cs → (∀ c ∈ cs, IsAscii c) → tail = asciiBytes cs) : a :: tail = asciiBytes cs := by
  obtain ⟨cs, hrest, rfl⟩ := Option.map_eq_some_iff.mp h
  have ha : a.toNat < 128 := UInt8.lt_iff_toNat_lt.mp ha
  rw [List.forall_mem_cons] at hcs
  rw [ih hrest hcs.2]
  simp only [asciiBytes, List.map_cons]
  rw [Utf8.toNat_ofNat_of_scalar (by omega), UInt8.ofNat_toNat]

theorem Utf8.bytes_of_decode (h : Utf8.decode bytes = some cs) (hcs : ∀ c ∈ cs, IsAscii c) :
    bytes = asciiBytes cs := by
  fun_induction Utf8.decode bytes generalizing cs with
  | case1 =>
    cases h
    rfl
  | case2 a rest ha ih => exact cons_of_map h ha hcs ih
  | case4 a _ b rest c hc _ => exact absurd hcs (not_ascii_of_map h (not_ascii_of_lt (lt_of_pair? hc)))
  | case6 a _ b _ c rest x hx _ => exact absurd hcs (not_ascii_of_map h (not_ascii_of_lt (lt_of_triple? hx)))
  | case8 a _ b _ c _ d rest x hx _ => exact absurd hcs (not_ascii_of_map h (not_ascii_of_lt (lt_of_quad? hx)))
  | case3 | case5 | case7 | case9 => cases h

namespace ModifiedUtf8

theorem not_ascii_null : ¬ IsAscii (Char.ofNat 0) := by decide

theorem lt_of_combine {n m : Nat} (hn : isHighSurrogate n = true) (hm : isLowSurrogate m = true) :
    127 < (combine n m).toNat := by
  simp only [isHighSurrogate, isLowSurrogate, Bool.and_eq_true, decide_eq_true_eq] at hn hm
  unfold combine
  rw [Utf8.toNat_ofNat_of_scalar (by omega)]
  omega

theorem bytes_of_decodeStrict (h : decodeStrict bytes = some cs) (hcs : ∀ c ∈ cs, IsAscii c) :
    bytes = asciiBytes cs := by
  fun_induction decodeStrict bytes generalizing cs with
  | case1 =>
    cases h
    rfl
  | case3 a rest _ ha ih => exact cons_of_map h ha hcs ih
  | case5 => exact absurd hcs (not_ascii_of_map h not_ascii_null)
  | case6 a _ _ b rest _ c hc _ => exact absurd hcs (not_ascii_of_map h (not_ascii_of_lt (Utf8.lt_of_pair? hc)))
  | case9 a _ _ b _ _ c rest n hn hs _ =>
    have hs : Utf8.isSurrogate n = false := by simpa using hs
    exact absurd hcs (not_ascii_of_map h (not_ascii_of_lt (Utf8.lt_of_unit? hn hs)))
  | case10 a _ _ b _ _ c n _ _ d e f rest m _ hpair _ =>
    obtain ⟨hn, hm⟩ := Bool.and_eq_true_iff.mp hpair
    exact absurd hcs (not_ascii_of_map h (not_ascii_of_lt (lt_of_combine hn hm)))
  | case2 | case4 | case7 | case8 | case11 | case12 | case13 => cases h

/-- Only its own bytes decode to a text in ASCII. -/
theorem eq_ascii_of_decode {text : String} (h : decode bytes = some text) (htext : ∀ c ∈ text.toList, IsAscii c) :
    bytes = asciiBytes text.toList := by
  unfold decode at h
  split at h
  · rename_i cs hcs
    cases h
    rw [String.toList_ofList] at htext ⊢
    exact Utf8.bytes_of_decode hcs htext
  · obtain ⟨cs, hcs, rfl⟩ := Option.map_eq_some_iff.mp h
    rw [String.toList_ofList] at htext ⊢
    exact bytes_of_decodeStrict hcs htext

end ModifiedUtf8

/-! ### Lengths -/

/-- A first character, which takes some bytes. -/
theorem length_le_of_map {n : Nat} (h : rest.map (x :: ·) = some cs) (hn : n < bytes.length)
    (ih : ∀ {cs}, rest = some cs → cs.length ≤ n) : cs.length ≤ bytes.length := by
  obtain ⟨tail, hrest, rfl⟩ := Option.map_eq_some_iff.mp h
  exact Nat.le_trans (Nat.succ_le_succ (ih hrest)) hn

theorem Utf8.length_le_of_decode (h : Utf8.decode bytes = some cs) : cs.length ≤ bytes.length := by
  fun_induction Utf8.decode bytes generalizing cs with
  | case1 =>
    cases h
    exact Nat.le_refl 0
  | case2 _ _ _ ih | case4 _ _ _ _ _ _ ih | case6 _ _ _ _ _ _ _ _ ih | case8 _ _ _ _ _ _ _ _ _ _ ih =>
    exact length_le_of_map h (by simp only [List.length_cons]; omega) ih
  | case3 | case5 | case7 | case9 => cases h

namespace ModifiedUtf8

theorem length_le_of_decodeStrict (h : decodeStrict bytes = some cs) : cs.length ≤ bytes.length := by
  fun_induction decodeStrict bytes generalizing cs with
  | case1 =>
    cases h
    exact Nat.le_refl 0
  | case3 _ _ _ _ ih | case5 _ _ _ _ _ _ ih | case6 _ _ _ _ _ _ _ _ ih | case9 _ _ _ _ _ _ _ _ _ _ _ ih
  | case10 _ _ _ _ _ _ _ _ _ _ _ _ _ _ _ _ _ ih =>
    exact length_le_of_map h (by simp only [List.length_cons]; omega) ih
  | case2 | case4 | case7 | case8 | case11 | case12 | case13 => cases h

/-- A text has no more characters than bytes. -/
theorem length_le_of_decode {text : String} (h : decode bytes = some text) : text.length ≤ bytes.length := by
  unfold decode at h
  split at h
  · rename_i cs hcs
    cases h
    rw [String.length_ofList]
    exact Utf8.length_le_of_decode hcs
  · obtain ⟨cs, hcs, rfl⟩ := Option.map_eq_some_iff.mp h
    rw [String.length_ofList]
    exact length_le_of_decodeStrict hcs

end ModifiedUtf8

/-! ### The encoding -/

theorem Utf8.decode_ascii (h : ∀ c ∈ cs, IsAscii c) : Utf8.decode (asciiBytes cs) = some cs := by
  induction cs with
  | nil => rfl
  | cons c rest ih =>
    rw [List.forall_mem_cons] at h
    obtain ⟨hc, hrest⟩ := h
    have hbyte : (UInt8.ofNat c.toNat).toNat = c.toNat := UInt8.toNat_ofNat_of_lt' (Nat.lt_trans hc.2 (by decide))
    have hlow : UInt8.ofNat c.toNat < 0x80 := by
      rw [UInt8.lt_iff_toNat_lt, hbyte]
      exact hc.2
    have hstep : Utf8.decode (UInt8.ofNat c.toNat :: asciiBytes rest) =
        (Utf8.decode (asciiBytes rest)).map (Char.ofNat (UInt8.ofNat c.toNat).toNat :: ·) := by
      rw [Utf8.decode.eq_def]
      exact if_pos hlow
    rw [ih hrest, hbyte, Char.ofNat_toNat] at hstep
    exact hstep

instance : Encoding where
  decode := ModifiedUtf8.decode
  decode_ascii text h := by
    rw [ModifiedUtf8.decode, Utf8.decode_ascii h]
    exact congrArg some String.ofList_toList
  eq_ascii_of_decode := ModifiedUtf8.eq_ascii_of_decode
  length_le_of_decode := ModifiedUtf8.length_le_of_decode

end ClassCatalog.Text
