import ClassCatalog.Bytes

/-! What stands where.

`b.Holds pos part` says that the bytes `part` stand in `b` from `pos` on. A concatenation stands
where its parts stand one after the other (`holds_append`), and what the readers of words and
slices answer is what stands there (`word?_eq_some_iff_holds`, `long?_eq_some_iff_holds`,
`slice?_eq_some_iff_holds`). A splice is described by its front and back (`toList_splice`). -/
namespace ClassCatalog

theorem wordBytes_length (w : UInt16) : (wordBytes w).length = 2 := rfl

theorem longBytes_length (n : UInt32) : (longBytes n).length = 4 := rfl

namespace Bytes

/-- The bytes `part` stand in `b` from `pos` on. -/
def Holds (b : Bytes) (pos : Nat) (part : List UInt8) : Prop :=
  ∃ front back, b.toList = front ++ part ++ back ∧ front.length = pos

variable {b : Bytes} {pos : Nat} {part rest : List UInt8}

theorem Holds.le_size (h : b.Holds pos part) : pos + part.length ≤ b.size := by
  obtain ⟨front, back, hb, rfl⟩ := h
  have hlen := congrArg List.length hb
  simp only [Array.length_toList, List.length_append] at hlen
  omega

theorem holds_nil : b.Holds pos [] ↔ pos ≤ b.size := by
  constructor
  · intro h
    exact h.le_size
  · intro h
    exact ⟨b.toList.take pos, b.toList.drop pos, by simp, List.length_take_of_le h⟩

theorem holds_append :
    b.Holds pos (part ++ rest) ↔ b.Holds pos part ∧ b.Holds (pos + part.length) rest := by
  constructor
  · rintro ⟨front, back, hb, rfl⟩
    exact ⟨⟨front, rest ++ back, by simp [hb], rfl⟩, ⟨front ++ part, back, by simp [hb], by simp⟩⟩
  · rintro ⟨⟨front, back, hb, rfl⟩, ⟨front', back', hb', hlen⟩⟩
    -- The two splits of the bytes meet behind the first part.
    have hfront : front ++ part = front' := by
      have heq : (front ++ part) ++ back = front' ++ (rest ++ back') := by rw [← hb, hb', List.append_assoc]
      exact (List.append_inj heq (by simp [hlen])).1
    refine ⟨front, back', ?_, rfl⟩
    rw [hb', ← hfront]
    simp

theorem holds_cons {x : UInt8} : b.Holds pos (x :: rest) ↔ b[pos]? = some x ∧ b.Holds (pos + 1) rest := by
  rw [← List.singleton_append, holds_append, List.length_singleton]
  refine and_congr_left fun _ => ?_
  constructor
  · rintro ⟨front, back, hb, rfl⟩
    rw [← Array.getElem?_toList, hb]
    simp
  · intro h
    obtain ⟨hlt, hx⟩ := Array.getElem?_eq_some_iff.mp h
    refine ⟨b.toList.take pos, b.toList.drop (pos + 1), ?_, ?_⟩
    · rw [← hx, ← Array.getElem_toList, List.append_assoc, List.singleton_append,
        List.getElem_cons_drop, List.take_append_drop]
    · rw [List.length_take, Array.length_toList]
      omega

/-- All bytes that there are stand somewhere. -/
theorem exists_holds (b : Bytes) (pos n : Nat) (h : pos + n ≤ b.size) :
    ∃ part, part.length = n ∧ b.Holds pos part := by
  refine ⟨(b.toList.drop pos).take n, ?_, b.toList.take pos, b.toList.drop (pos + n), ?_, ?_⟩
  · simp
    omega
  · rw [← List.drop_drop, List.append_assoc, List.take_append_drop, List.take_append_drop]
  · simp
    omega

theorem holds_toArray (bytes : List UInt8) : Holds bytes.toArray 0 bytes := ⟨[], [], by simp, rfl⟩

/-! ### Reading what stands there -/

theorem word?_eq_some_iff_holds {w : UInt16} : b.word? pos = some w ↔ b.Holds pos (wordBytes w) := by
  unfold wordBytes word?
  rw [holds_cons, holds_cons, holds_nil]
  constructor
  · intro h
    split at h
    · rename_i hi lo hhi hlo
      cases h
      rw [high_word, low_word]
      exact ⟨hhi, hlo, (Array.getElem?_eq_some_iff.mp hlo).1⟩
    · cases h
  · rintro ⟨hhi, hlo, _⟩
    rw [hhi, hlo]
    exact congrArg some (word_high_low w)

theorem Holds.word? {w : UInt16} (h : b.Holds pos (wordBytes w)) : b.word? pos = some w :=
  word?_eq_some_iff_holds.mpr h

theorem exists_holds_word (b : Bytes) (pos : Nat) (h : pos + 2 ≤ b.size) :
    ∃ w, b.Holds pos (wordBytes w) := by
  obtain ⟨w, hw⟩ := Option.isSome_iff_exists.mp ((word?_eq_some_iff b pos).mpr h)
  exact ⟨w, word?_eq_some_iff_holds.mp hw⟩

theorem long_toNat_split (n : UInt32) :
    (UInt16.ofNat (n.toNat / 65536)).toNat = n.toNat / 65536 ∧
      (UInt16.ofNat n.toNat).toNat = n.toNat % 65536 := by
  have := n.toNat_lt
  exact ⟨UInt16.toNat_ofNat_of_lt' (by show n.toNat / 65536 < 65536; omega), UInt16.toNat_ofNat'⟩

theorem long?_eq_some_iff_holds {n : UInt32} : b.long? pos = some n ↔ b.Holds pos (longBytes n) := by
  unfold longBytes long?
  rw [holds_append, wordBytes_length, ← word?_eq_some_iff_holds, ← word?_eq_some_iff_holds]
  constructor
  · intro h
    split at h
    · rename_i hi lo hhi hlo
      cases h
      have hlt := hi.toNat_lt
      have llt := lo.toNat_lt
      have hn : (UInt32.ofNat (hi.toNat * 65536 + lo.toNat)).toNat = hi.toNat * 65536 + lo.toNat :=
        UInt32.toNat_ofNat_of_lt' (by show _ < 4294967296; omega)
      rw [hn, hhi, hlo]
      constructor
      · congr 1
        apply UInt16.toNat_inj.mp
        rw [UInt16.toNat_ofNat']
        omega
      · congr 1
        apply UInt16.toNat_inj.mp
        rw [UInt16.toNat_ofNat']
        omega
    · cases h
  · rintro ⟨hhi, hlo⟩
    rw [hhi, hlo]
    obtain ⟨h, l⟩ := long_toNat_split n
    dsimp only
    rw [h, l, show n.toNat / 65536 * 65536 + n.toNat % 65536 = n.toNat by omega, UInt32.ofNat_toNat]

theorem Holds.long? {n : UInt32} (h : b.Holds pos (longBytes n)) : b.long? pos = some n :=
  long?_eq_some_iff_holds.mpr h

theorem Holds.slice? (h : b.Holds pos part) : b.slice? pos part.length = some part.toArray := by
  have hle := h.le_size
  obtain ⟨front, back, hb, rfl⟩ := h
  rw [Bytes.slice?, if_pos hle]
  congr 1
  apply Array.toList_inj.mp
  rw [Array.toList_extract, hb]
  simp [List.extract_eq_take_drop]

theorem slice?_eq_some_iff_holds {s : Bytes} {n : Nat} :
    b.slice? pos n = some s ↔ b.Holds pos s.toList ∧ s.size = n := by
  constructor
  · intro h
    have hsize := slice?_size h
    have hin : pos + n ≤ b.size := by
      unfold slice? at h
      split at h
      · assumption
      · cases h
    obtain ⟨part, rfl, hpart⟩ := exists_holds b pos n hin
    rw [hpart.slice?] at h
    cases h
    exact ⟨hpart, hsize⟩
  · rintro ⟨h, rfl⟩
    exact h.slice?

/-- More bytes behind leave what stands where it stands. -/
theorem Holds.append (h : b.Holds pos part) (x : Bytes) : Holds (b ++ x) pos part := by
  obtain ⟨front, back, hb, rfl⟩ := h
  exact ⟨front, back ++ x.toList, by simp [hb], rfl⟩

theorem word?_append {w : UInt16} (h : b.word? pos = some w) (x : Bytes) : word? (b ++ x) pos = some w :=
  ((word?_eq_some_iff_holds.mp h).append x).word?

theorem slice?_append {s : Bytes} {n : Nat} (h : b.slice? pos n = some s) (x : Bytes) :
    slice? (b ++ x) pos n = some s := by
  obtain ⟨hholds, hsize⟩ := slice?_eq_some_iff_holds.mp h
  exact slice?_eq_some_iff_holds.mpr ⟨hholds.append x, hsize⟩

/-! ### Splicing -/

/-- Exchanging a part leaves what stands in front of it and behind it. -/
theorem toList_splice {front old back : List UInt8} (h : b.toList = front ++ old ++ back) (new : List UInt8) :
    (b.splice front.length old.length new).toList = front ++ new ++ back := by
  have hsize : b.size = front.length + (old.length + back.length) := by
    rw [← Array.length_toList, h]
    simp
  have hback : front.length + (old.length + back.length) - (front.length + old.length) = back.length := by
    omega
  simp [Bytes.splice, h, hsize, hback, List.extract_eq_take_drop]

theorem toList_setWord {front back : List UInt8} {old : UInt16}
    (h : b.toList = front ++ wordBytes old ++ back) (w : UInt16) :
    (b.setWord front.length w).toList = front ++ wordBytes w ++ back :=
  toList_splice h (wordBytes w)

theorem toList_setLong {front back : List UInt8} {old : UInt32}
    (h : b.toList = front ++ longBytes old ++ back) (n : UInt32) :
    (b.setLong front.length n).toList = front ++ longBytes n ++ back :=
  toList_splice h (longBytes n)

end Bytes
end ClassCatalog
