import ClassCatalog.Proofs.ClassFile.Accepted
import ClassCatalog.Proofs.ClassFile.Pool

/-! What a pool that was read was read from.

Reading a constant answers what stands there (`of_constant`), whatever the bytes are. So the slots of a pool
hold constants that stand in the file one after another, a wide one followed by an empty slot (`slotsAt`,
`exists_written`). The offset in a slot leads back to the constant, and with it all of a text
(`ConstantPool.Written.holds_payload`). -/
namespace ClassCatalog.ClassFile
open Image Reader

variable {b : Bytes} {pos stop : Nat} {tag : UInt8}

/-! ### Constants -/

theorem of_word {f : UInt16 → Constant} {c : Constant} (h : Reads (do ahead 2; return f (← u16)) b pos c stop) :
    ∃ w, f w = c ∧ b.Holds pos (wordBytes w) ∧ pos + 2 = stop := by
  simp only [reads_bind, reads_ahead, reads_u16, reads_pure] at h
  obtain ⟨_, _, ⟨_, rfl⟩, w, _, ⟨hw, rfl⟩, hc, rfl⟩ := h
  exact ⟨w, hc, Bytes.word?_eq_some_iff_holds.mp hw, rfl⟩

theorem of_words {f : UInt16 → UInt16 → Constant} {c : Constant}
    (h : Reads (do ahead 4; return f (← u16) (← u16)) b pos c stop) :
    ∃ v w, f v w = c ∧ b.Holds pos (wordBytes v ++ wordBytes w) ∧ pos + 4 = stop := by
  simp only [reads_bind, reads_ahead, reads_u16, reads_pure] at h
  obtain ⟨_, _, ⟨_, rfl⟩, v, _, ⟨hv, rfl⟩, w, _, ⟨hw, rfl⟩, hc, rfl⟩ := h
  exact ⟨v, w, hc, Bytes.holds_append.mpr
    ⟨Bytes.word?_eq_some_iff_holds.mp hv, Bytes.word?_eq_some_iff_holds.mp hw⟩, rfl⟩

theorem of_long {f : UInt32 → Constant} {c : Constant} (h : Reads (do ahead 4; return f (← u32)) b pos c stop) :
    ∃ n, f n = c ∧ b.Holds pos (longBytes n) ∧ pos + 4 = stop := by
  simp only [reads_bind, reads_ahead, reads_u32, reads_pure] at h
  obtain ⟨_, _, ⟨_, rfl⟩, n, _, ⟨hn, rfl⟩, hc, rfl⟩ := h
  exact ⟨n, hc, Bytes.long?_eq_some_iff_holds.mp hn, rfl⟩

theorem of_longs {f : UInt32 → UInt32 → Constant} {c : Constant}
    (h : Reads (do ahead 8; return f (← u32) (← u32)) b pos c stop) :
    ∃ m n, f m n = c ∧ b.Holds pos (longBytes m ++ longBytes n) ∧ pos + 8 = stop := by
  simp only [reads_bind, reads_ahead, reads_u32, reads_pure] at h
  obtain ⟨_, _, ⟨_, rfl⟩, m, _, ⟨hm, rfl⟩, n, _, ⟨hn, rfl⟩, hc, rfl⟩ := h
  exact ⟨m, n, hc, Bytes.holds_append.mpr
    ⟨Bytes.long?_eq_some_iff_holds.mp hm, Bytes.long?_eq_some_iff_holds.mp hn⟩, rfl⟩

/-- A text is no longer than its length can say. -/
def Constant.Short : Constant → Prop
  | .utf8 bytes => bytes.size < countLimit
  | _ => True

/-- What is read behind a tag is a constant with that tag, as it is written there. -/
theorem of_constant {c : Constant} (h : Reads (constant tag) b pos c stop) :
    c.tag = tag ∧ c.Short ∧ b.Holds pos (payload c) ∧ pos + (payload c).length = stop := by
  have htag : ∀ n : UInt8, tag.toNat = n.toNat → n = tag := fun n hn => (UInt8.toNat_inj.mp hn).symm
  unfold constant at h
  split at h
  case h_1 hn =>
    simp only [reads_bind, reads_u16, reads_take, reads_pure] at h
    obtain ⟨n, _, ⟨hn', rfl⟩, bytes, _, ⟨hbytes, rfl⟩, rfl, rfl⟩ := h
    obtain ⟨hholds, hsize⟩ := Bytes.slice?_eq_some_iff_holds.mp hbytes
    have hcount : UInt16.ofNat bytes.size = n := by rw [hsize, UInt16.ofNat_toNat]
    refine ⟨htag 1 hn, ?_, ?_, ?_⟩
    · show bytes.size < countLimit
      rw [hsize]
      exact n.toNat_lt
    · rw [payload, hcount]
      exact Bytes.holds_append.mpr ⟨Bytes.word?_eq_some_iff_holds.mp hn', hholds⟩
    · rw [payload, List.length_append, wordBytes_length, Array.length_toList, hsize, Nat.add_assoc]
  case h_2 hn | h_3 hn =>
    obtain ⟨n, rfl, hholds, hstop⟩ := of_long h
    exact ⟨htag _ hn, trivial, hholds, hstop⟩
  case h_4 hn | h_5 hn =>
    obtain ⟨m, n, rfl, hholds, hstop⟩ := of_longs h
    exact ⟨htag _ hn, trivial, hholds, hstop⟩
  case h_6 hn | h_7 hn | h_13 hn | h_16 hn | h_17 hn =>
    obtain ⟨w, rfl, hholds, hstop⟩ := of_word h
    exact ⟨htag _ hn, trivial, hholds, hstop⟩
  case h_8 hn | h_9 hn | h_10 hn | h_11 hn | h_14 hn | h_15 hn =>
    obtain ⟨v, w, rfl, hholds, hstop⟩ := of_words h
    exact ⟨htag _ hn, trivial, hholds, hstop⟩
  case h_12 hn =>
    simp only [reads_bind, reads_ahead, reads_u8, reads_u16, reads_pure] at h
    obtain ⟨_, _, ⟨_, rfl⟩, kind, _, ⟨hkind, rfl⟩, reference, _, ⟨hreference, rfl⟩, rfl, rfl⟩ := h
    exact ⟨htag _ hn, trivial,
      Bytes.holds_cons.mpr ⟨hkind, Bytes.word?_eq_some_iff_holds.mp hreference⟩, rfl⟩
  case h_18 =>
    simp only [reads_bind, reads_position, reads_moveTo, not_reads_fail, and_false, exists_false] at h

/-! ### Slots -/

/-- The slots of constants that stand one after another from `pos` on. -/
def slotsAt : Nat → List Constant → List (Option Slot)
  | _, [] => []
  | pos, c :: rest =>
    some ⟨pos + 1, c⟩ :: if c.isWide then none :: slotsAt (pos + (constantBytes c).length) rest
      else slotsAt (pos + (constantBytes c).length) rest

theorem slotsAt_concat (pos : Nat) (cs : List Constant) (c : Constant) :
    slotsAt pos (cs ++ [c]) = slotsAt pos cs ++
      some ⟨pos + (cs.flatMap constantBytes).length + 1, c⟩ :: if c.isWide then [none] else [] := by
  induction cs generalizing pos with
  | nil => simp [slotsAt]
  | cons d rest ih =>
    have hpos : pos + ((d :: rest).flatMap constantBytes).length =
        pos + (constantBytes d).length + (rest.flatMap constantBytes).length := by
      rw [List.flatMap_cons, List.length_append, Nat.add_assoc]
    rw [hpos]
    simp only [List.cons_append, slotsAt, ih]
    split <;> rfl

/-- A filled slot belongs to one of the constants, and its offset to where that stands. -/
theorem exists_split_of_mem_slotsAt {cs : List Constant} {slot : Slot} (h : some slot ∈ slotsAt pos cs) :
    ∃ front back, cs = front ++ slot.constant :: back ∧
      slot.offset = pos + (front.flatMap constantBytes).length + 1 := by
  induction cs generalizing pos with
  | nil => cases h
  | cons c rest ih =>
    have hmem : slot = ⟨pos + 1, c⟩ ∨ some slot ∈ slotsAt (pos + (constantBytes c).length) rest := by
      rcases List.mem_cons.mp h with hfirst | hrest
      · exact .inl (Option.some.inj hfirst)
      · split at hrest
        · exact .inr ((List.mem_cons.mp hrest).resolve_left nofun)
        · exact .inr hrest
    rcases hmem with rfl | hrest
    · exact ⟨[], rest, rfl, rfl⟩
    · obtain ⟨front, back, rfl, hoffset⟩ := ih hrest
      refine ⟨c :: front, back, rfl, ?_⟩
      rw [hoffset, List.flatMap_cons, List.length_append, ← Nat.add_assoc]

/-- Behind a wide constant there is an empty slot. -/
theorem slotsAt_after_wide {cs : List Constant} {i : Nat} {slot : Slot}
    (h : (slotsAt pos cs)[i]? = some (some slot)) (hwide : slot.constant.isWide = true) :
    (slotsAt pos cs)[i + 1]? = some none := by
  induction cs generalizing pos i with
  | nil => cases h
  | cons c rest ih =>
    unfold slotsAt at h ⊢
    cases i with
    | zero =>
      cases h
      rw [if_pos hwide]
      rfl
    | succ i =>
      rw [List.getElem?_cons_succ] at h ⊢
      split at h
      · rename_i hc
        rw [if_pos hc]
        cases i with
        | zero => cases h
        | succ i => exact ih h
      · rename_i hc
        rw [if_neg hc]
        exact ih h

/-! ### Pools -/

/-- The constants `cs` stand in `b` from `pos` on, and the pool has their slots behind its empty first one. If
the last constant is wide, the slot behind it may be missing, and if there are no slots, the first one is. -/
structure ConstantPool.Written (pool : ConstantPool) (b : Bytes) (pos : Nat) (cs : List Constant) : Prop where
  short : ∀ c ∈ cs, c.Short
  holds : b.Holds pos (cs.flatMap constantBytes)
  slots : pool.slots.toList = none :: slotsAt pos cs ∨ pool.slots.toList ++ [none] = none :: slotsAt pos cs

/-- A slot is filled without reading if it is taken, and otherwise with the constant that stands there. -/
theorem fillSlot_cases {f f' : Filling} (h : Reads (fillSlot f) b pos f' stop) :
    (f.taken = true ∧ f' = ⟨f.slots.push none, false⟩ ∧ stop = pos) ∨
      (f.taken = false ∧ ∃ c, c.Short ∧ f' = ⟨f.slots.push (some ⟨pos + 1, c⟩), c.isWide⟩ ∧
        b.Holds pos (constantBytes c) ∧ stop = pos + (constantBytes c).length) := by
  unfold fillSlot at h
  split at h
  · rename_i htaken
    obtain ⟨rfl, rfl⟩ := reads_pure.mp h
    exact .inl ⟨htaken, rfl, rfl⟩
  · rename_i htaken
    simp only [reads_bind, reads_u8, reads_position, reads_pure] at h
    obtain ⟨tag, _, ⟨htag, rfl⟩, _, _, ⟨rfl, rfl⟩, c, _, hc, rfl, rfl⟩ := h
    obtain ⟨rfl, hshort, hholds, rfl⟩ := of_constant hc
    refine .inr ⟨Bool.eq_false_iff.mpr htaken, c, hshort, rfl, Bytes.holds_cons.mpr ⟨htag, hholds⟩, ?_⟩
    rw [constantBytes, List.length_cons]
    omega

/-- The constants `cs` stand in `b` from `start` to `stop`, and their slots have been filled; one that is taken
counts as filled. -/
structure Filling.Written (f : Filling) (b : Bytes) (start stop : Nat) (cs : List Constant) : Prop where
  short : ∀ c ∈ cs, c.Short
  holds : b.Holds start (cs.flatMap constantBytes)
  slots : f.slots.toList ++ (if f.taken then [none] else []) = none :: slotsAt start cs
  ends : stop = start + (cs.flatMap constantBytes).length

theorem Filling.Written.step {f f' : Filling} {start : Nat} {cs : List Constant} (h : f.Written b start pos cs)
    (hstep : Reads (fillSlot f) b pos f' stop) : ∃ cs', f'.Written b start stop cs' := by
  have hslots := h.slots
  rcases fillSlot_cases hstep with ⟨htaken, rfl, rfl⟩ | ⟨htaken, c, hc, rfl, hwritten, rfl⟩
  · refine ⟨cs, { h with slots := ?_ }⟩
    rw [htaken, if_pos rfl] at hslots
    simpa using hslots
  · rw [htaken, if_neg Bool.false_ne_true, List.append_nil] at hslots
    refine ⟨cs ++ [c], List.forall_mem_append.mpr ⟨h.short, List.forall_mem_singleton.mpr hc⟩, ?_, ?_, ?_⟩
    · rw [List.flatMap_append, List.flatMap_singleton, Bytes.holds_append, ← h.ends]
      exact ⟨h.holds, hwritten⟩
    · rw [slotsAt_concat, ← List.cons_append, ← hslots, ← h.ends]
      simp
    · rw [List.flatMap_append, List.flatMap_singleton, List.length_append, ← Nat.add_assoc, ← h.ends]

/-- A pool that was read has the slots of the constants that stand there. -/
theorem exists_written {pool : ConstantPool} {count : UInt16} (hpos : pos ≤ b.size)
    (h : Reads (constantPool count) b pos pool stop) :
    ∃ cs, pool.Written b pos cs ∧ stop = pos + (cs.flatMap constantBytes).length := by
  unfold constantPool at h
  simp only [reads_bind, reads_pure] at h
  obtain ⟨f, _, hloop, rfl, rfl⟩ := h
  by_cases hcount : count = 0
  · subst hcount
    obtain ⟨rfl, rfl⟩ := reads_loop_zero.mp hloop
    exact ⟨[], ⟨nofun, Bytes.holds_nil.mpr hpos, .inr rfl⟩, rfl⟩
  · rw [if_neg hcount] at hloop
    have hstart : (⟨#[none], false⟩ : Filling).Written b pos pos [] :=
      ⟨nofun, Bytes.holds_nil.mpr hpos, rfl, rfl⟩
    obtain ⟨cs, hf⟩ := of_loop (P := fun _ f q => ∃ cs, f.Written b pos q cs)
      (fun _ _ _ _ _ ⟨_, h⟩ hstep => h.step hstep) (i := 0) ⟨[], hstart⟩ hloop
    refine ⟨cs, ⟨hf.short, hf.holds, ?_⟩, hf.ends⟩
    have hslots := hf.slots
    split at hslots
    · exact .inr hslots
    · rw [List.append_nil] at hslots
      exact .inl hslots

namespace ConstantPool.Written
variable {pool : ConstantPool} {cs : List Constant} {index : UInt16} {slot : Slot}

theorem getElem?_slots (h : pool.Written b pos cs) {i : Nat} (hi : pool.slots[i]? = some (some slot)) :
    0 < i ∧ (slotsAt pos cs)[i - 1]? = some (some slot) := by
  have hall : (none :: slotsAt pos cs)[i]? = some (some slot) := by
    rw [← Array.getElem?_toList] at hi
    rcases h.slots with hslots | hslots
    · rw [← hslots, hi]
    · rw [← hslots, List.getElem?_append_left (List.getElem?_eq_some_iff.mp hi).1, hi]
  cases i with
  | zero => cases hall
  | succ i => exact ⟨Nat.succ_pos i, hall⟩

/-- Behind its offset a slot's constant stands in the bytes. -/
theorem holds_payload (h : pool.Written b pos cs) (hslot : pool.slot? index = some slot) :
    slot.constant.Short ∧ b.Holds slot.offset (payload slot.constant) := by
  have hmem := List.mem_of_getElem? (h.getElem?_slots (Option.join_eq_some_iff.mp hslot)).2
  obtain ⟨front, back, rfl, hoffset⟩ := exists_split_of_mem_slotsAt hmem
  have hholds := h.holds
  rw [List.flatMap_append, List.flatMap_cons, Bytes.holds_append, Bytes.holds_append] at hholds
  refine ⟨h.short _ (by simp), ?_⟩
  rw [hoffset]
  exact (Bytes.holds_cons.mp hholds.2.1).2

/-- The slot behind a wide constant is empty. -/
theorem slot?_after_wide (h : pool.Written b pos cs) (hslot : pool.slot? index = some slot)
    (hwide : slot.constant.isWide = true) {next : UInt16} (hnext : next.toNat = index.toNat + 1) :
    pool.slot? next = none := by
  obtain ⟨hpos, hi⟩ := h.getElem?_slots (Option.join_eq_some_iff.mp hslot)
  have hafter := slotsAt_after_wide hi hwide
  rw [Nat.sub_add_cancel hpos] at hafter
  cases hfound : pool.slot? next with
  | none => rfl
  | some found =>
    have hfound := (h.getElem?_slots (Option.join_eq_some_iff.mp hfound)).2
    rw [hnext, Nat.add_sub_cancel, hafter] at hfound
    cases hfound

end ConstantPool.Written

end ClassCatalog.ClassFile
