import ClassCatalog.ClassFile.Parse
import ClassCatalog.Proofs.ClassFile.Image
import ClassCatalog.Proofs.ClassFile.Reads

/-! What is read of a written constant pool.

A written pool is a list of constants; a wide one is followed by an empty slot (`Pool.slots`). Reading it
gives a pool with the same constants at the same indices (`reads_constantPool`), so that names are resolved
in the one as in the other; if every constant points to what it should, no reference is wrong
(`exists_references`). -/
namespace ClassCatalog.ClassFile

namespace Image

/-- What stands behind the tag. -/
def payload : Constant → List UInt8
  | .utf8 bytes => wordBytes (UInt16.ofNat bytes.size) ++ bytes.toList
  | .integer bits | .float bits => longBytes bits
  | .long high low | .double high low => longBytes high ++ longBytes low
  | .classRef index | .string index | .methodType index | .module index | .package index => wordBytes index
  | .fieldRef i j | .methodRef i j | .interfaceMethodRef i j | .nameAndType i j | .dynamic i j
  | .invokeDynamic i j => wordBytes i ++ wordBytes j
  | .methodHandle kind reference => kind :: wordBytes reference

def constantBytes (c : Constant) : List UInt8 := c.tag :: payload c

structure Pool where
  constants : List Constant
deriving DecidableEq, Repr

namespace Pool

/-- The slots from `constants` on. -/
def slotsFrom : List Constant → List (Option Constant)
  | [] => []
  | c :: rest => some c :: if c.isWide then none :: slotsFrom rest else slotsFrom rest

def slots (p : Pool) : List (Option Constant) := none :: slotsFrom p.constants

def constant? (p : Pool) (index : UInt16) : Option Constant := p.slots[index.toNat]?.join

/-- The text of a UTF8 constant. -/
def text? [Text.Encoding] (p : Pool) (index : UInt16) : Option String :=
  match p.constant? index with
  | some (.utf8 bytes) => Text.Encoding.decode bytes.toList
  | _ => none

/-- The name of a class constant. -/
def className? [Text.Encoding] (p : Pool) (index : UInt16) : Option String :=
  match p.constant? index with
  | some (.classRef name) => (p.text? name).map Name.ofConstant
  | _ => none

/-- A name and type, both texts. -/
def IsPair [Text.Encoding] (p : Pool) (index : UInt16) : Prop :=
  ∃ name descriptor, p.constant? index = some (.nameAndType name descriptor) ∧ (p.text? name).isSome ∧
    (p.text? descriptor).isSome

/-- What a constant of a well-formed pool points to. -/
def Refers [Text.Encoding] (p : Pool) : Constant → Prop
  | .utf8 bytes => bytes.size < countLimit
  | .classRef name => (p.text? name).isSome
  | .methodRef owner pair | .interfaceMethodRef owner pair => (p.className? owner).isSome ∧ p.IsPair pair
  | _ => True

structure Fits [Text.Encoding] (p : Pool) : Prop where
  size : p.slots.length < countLimit
  refers : ∀ c ∈ p.constants, p.Refers c

def bytes (p : Pool) : List UInt8 :=
  wordBytes (UInt16.ofNat p.slots.length) ++ p.constants.flatMap constantBytes

theorem utf8_of_text? [Text.Encoding] {p : Pool} {index : UInt16} {text : String} (h : p.text? index = some text) :
    ∃ bytes, p.constant? index = some (.utf8 bytes) ∧ Text.Encoding.decode bytes.toList = some text := by
  unfold text? at h
  split at h
  · rename_i bytes hconstant
    exact ⟨bytes, hconstant, h⟩
  · cases h

theorem classRef_of_className? [Text.Encoding] {p : Pool} {index : UInt16} {name : String}
    (h : p.className? index = some name) :
    ∃ i text, p.constant? index = some (.classRef i) ∧ p.text? i = some text ∧ Name.ofConstant text = name := by
  unfold className? at h
  split at h
  · rename_i i hconstant
    obtain ⟨text, htext, hname⟩ := Option.map_eq_some_iff.mp h
    exact ⟨i, text, hconstant, htext, hname⟩
  · cases h

theorem mem_slotsFrom {cs : List Constant} {c : Constant} : some c ∈ slotsFrom cs ↔ c ∈ cs := by
  induction cs with
  | nil => simp [slotsFrom]
  | cons d rest ih =>
    unfold slotsFrom
    cases d.isWide <;> simp [ih]

end Pool
end Image

open Image Reader

variable {b : Bytes} {pos : Nat} {p : Pool}

/-! ### Constants -/

theorem reads_word (f : UInt16 → Constant) {w : UInt16} (h : b.Holds pos (wordBytes w)) :
    Reads (do ahead 2; return f (← u16)) b pos (f w) (pos + 2) :=
  (Reads.ahead h.le_size).bind ((Reads.u16 h).bind (.pure _))

theorem reads_words (f : UInt16 → UInt16 → Constant) {v w : UInt16}
    (h : b.Holds pos (wordBytes v ++ wordBytes w)) :
    Reads (do ahead 4; return f (← u16) (← u16)) b pos (f v w) (pos + 4) := by
  obtain ⟨hv, hw⟩ := Bytes.holds_append.mp h
  exact (Reads.ahead h.le_size).bind ((Reads.u16 hv).bind ((Reads.u16 hw).bind (.pure _)))

theorem reads_long (f : UInt32 → Constant) {n : UInt32} (h : b.Holds pos (longBytes n)) :
    Reads (do ahead 4; return f (← u32)) b pos (f n) (pos + 4) :=
  (Reads.ahead h.le_size).bind ((Reads.u32 h).bind (.pure _))

theorem reads_longs (f : UInt32 → UInt32 → Constant) {m n : UInt32}
    (h : b.Holds pos (longBytes m ++ longBytes n)) :
    Reads (do ahead 8; return f (← u32) (← u32)) b pos (f m n) (pos + 8) := by
  obtain ⟨hm, hn⟩ := Bytes.holds_append.mp h
  exact (Reads.ahead h.le_size).bind ((Reads.u32 hm).bind ((Reads.u32 hn).bind (.pure _)))

theorem reads_constant [Text.Encoding] {c : Constant} (hc : p.Refers c) (h : b.Holds pos (payload c)) :
    Reads (constant c.tag) b pos c (pos + (payload c).length) := by
  cases c with
  | utf8 bytes =>
    obtain ⟨hn, hbytes⟩ := Bytes.holds_append.mp h
    have hsize : (UInt16.ofNat bytes.size).toNat = bytes.toList.length :=
      (toNat_count hc).trans (Array.length_toList ..).symm
    show Reads (u16 >>= fun n => Reader.take n.toNat >>= fun bytes => pure (Constant.utf8 bytes)) b pos _ _
    rw [payload, List.length_append, wordBytes_length, ← Nat.add_assoc]
    refine (Reads.u16 hn).bind ?_
    rw [hsize]
    exact (Reads.take hbytes).bind (.pure _)
  | integer bits => exact reads_long .integer h
  | float bits => exact reads_long .float h
  | long high low => exact reads_longs .long h
  | double high low => exact reads_longs .double h
  | classRef index => exact reads_word .classRef h
  | string index => exact reads_word .string h
  | methodType index => exact reads_word .methodType h
  | module index => exact reads_word .module h
  | package index => exact reads_word .package h
  | fieldRef i j => exact reads_words .fieldRef h
  | methodRef i j => exact reads_words .methodRef h
  | interfaceMethodRef i j => exact reads_words .interfaceMethodRef h
  | nameAndType i j => exact reads_words .nameAndType h
  | dynamic i j => exact reads_words .dynamic h
  | invokeDynamic i j => exact reads_words .invokeDynamic h
  | methodHandle kind reference =>
    have hin := h.le_size
    rw [payload, ← List.singleton_append] at h
    obtain ⟨hkind, hreference⟩ := Bytes.holds_append.mp h
    exact (Reads.ahead hin).bind ((Reads.u8 hkind).bind ((Reads.u16 hreference).bind (.pure _)))

/-! ### Slots -/

def ConstantPool.Matches (pool : ConstantPool) (p : Pool) : Prop :=
  pool.slots.toList.map (Option.map Slot.constant) = p.slots

theorem reads_fillSlot [Text.Encoding] (slots : Array (Option Slot)) {c : Constant} (hc : p.Refers c)
    (h : b.Holds pos (constantBytes c)) :
    Reads (fillSlot ⟨slots, false⟩) b pos ⟨slots.push (some ⟨pos + 1, c⟩), c.isWide⟩
      (pos + (constantBytes c).length) := by
  rw [constantBytes, ← List.singleton_append] at h
  obtain ⟨htag, hpayload⟩ := Bytes.holds_append.mp h
  have hlen : pos + (constantBytes c).length = pos + 1 + (payload c).length := by
    rw [constantBytes, List.length_cons]
    omega
  rw [hlen]
  exact (Reads.u8 htag).bind (Reads.position.bind ((reads_constant hc hpayload).bind (.pure _)))

theorem reads_slots [Text.Encoding] {cs : List Constant} (slots : Array (Option Slot)) (hcs : ∀ c ∈ cs, p.Refers c)
    (h : b.Holds pos (cs.flatMap constantBytes)) :
    ∃ f : Filling, Reads (loop (Pool.slotsFrom cs).length fillSlot ⟨slots, false⟩) b pos f
        (pos + (cs.flatMap constantBytes).length) ∧
      f.slots.toList.map (Option.map Slot.constant) =
        slots.toList.map (Option.map Slot.constant) ++ Pool.slotsFrom cs := by
  induction cs generalizing pos slots with
  | nil => exact ⟨_, rfl, by simp [Pool.slotsFrom]⟩
  | cons c rest ih =>
    rw [List.forall_mem_cons] at hcs
    rw [List.flatMap_cons, Bytes.holds_append] at h
    rw [List.flatMap_cons, List.length_append, ← Nat.add_assoc]
    have hfirst := reads_fillSlot slots hcs.1 h.1
    unfold Pool.slotsFrom
    cases hwide : c.isWide with
    | false =>
      rw [hwide] at hfirst
      obtain ⟨f, hrest, hf⟩ := ih (slots.push (some ⟨pos + 1, c⟩)) hcs.2 h.2
      exact ⟨f, hfirst.loop_succ hrest, by simp [hf]⟩
    | true =>
      -- The slot behind a wide constant is filled without reading anything.
      rw [hwide] at hfirst
      have hsecond : Reads (fillSlot ⟨slots.push (some ⟨pos + 1, c⟩), true⟩) b (pos + (constantBytes c).length)
          ⟨(slots.push (some ⟨pos + 1, c⟩)).push none, false⟩ (pos + (constantBytes c).length) := rfl
      obtain ⟨f, hrest, hf⟩ := ih ((slots.push (some ⟨pos + 1, c⟩)).push none) hcs.2 h.2
      exact ⟨f, hfirst.loop_succ (hsecond.loop_succ hrest), by simp [hf]⟩

theorem reads_constantPool [Text.Encoding] (hp : p.Fits) (h : b.Holds pos (p.constants.flatMap constantBytes)) :
    ∃ pool : ConstantPool, Reads (constantPool (UInt16.ofNat p.slots.length)) b pos pool
        (pos + (p.constants.flatMap constantBytes).length) ∧ pool.Matches p := by
  obtain ⟨f, hreads, hf⟩ := reads_slots #[none] hp.refers h
  have hcount := toNat_count hp.size
  have hpos : UInt16.ofNat p.slots.length ≠ 0 := by
    intro hzero
    rw [hzero] at hcount
    cases hcount
  have hlen : (UInt16.ofNat p.slots.length).toNat - 1 = (Pool.slotsFrom p.constants).length := by
    rw [hcount]
    rfl
  refine ⟨⟨f.slots⟩, ?_, hf⟩
  unfold constantPool
  rw [if_neg hpos, hlen]
  exact hreads.bind (.pure _)

/-! ### Names and references -/

theorem exists_mapM {α β : Type} {f : α → Except Fault β} {xs : List α} (h : ∀ x ∈ xs, ∃ y, f x = .ok y) :
    ∃ ys, xs.mapM f = .ok ys := by
  induction xs with
  | nil => exact ⟨[], rfl⟩
  | cons x rest ih =>
    rw [List.forall_mem_cons] at h
    obtain ⟨⟨y, hy⟩, hrest⟩ := h
    obtain ⟨ys, hys⟩ := ih hrest
    rw [List.mapM_cons, hy, hys]
    exact ⟨y :: ys, rfl⟩

section Matches
variable {pool : ConstantPool} (hm : pool.Matches p) {index : UInt16}
include hm

theorem ConstantPool.Matches.constant?_eq (index : UInt16) : pool.constant? index = p.constant? index := by
  unfold ConstantPool.constant? ConstantPool.slot? Pool.constant?
  rw [← hm, List.getElem?_map, Array.getElem?_toList]
  cases pool.slots[index.toNat]? with
  | none => rfl
  | some slot => rfl

theorem ConstantPool.Matches.text_eq [Text.Encoding] {text : String} (h : p.text? index = some text) :
    pool.text index = .ok text := by
  obtain ⟨bytes, hbytes, hdecode⟩ := Pool.utf8_of_text? h
  unfold ConstantPool.text
  rw [hm.constant?_eq, hbytes]
  dsimp only
  rw [hdecode]

theorem ConstantPool.Matches.className_eq [Text.Encoding] {name : UInt16} {text : String}
    (h : p.text? name = some text) :
    pool.className name = .ok (Name.ofConstant text) := by
  rw [ConstantPool.className, hm.text_eq h]
  rfl

theorem ConstantPool.Matches.reads_classAt [Text.Encoding] {name : String} (h : p.className? index = some name)
    (role : Role) :
    Reads (classAt pool index role) b pos name pos := by
  obtain ⟨i, text, hclass, htext, rfl⟩ := Pool.classRef_of_className? h
  unfold classAt
  rw [hm.constant?_eq, hclass]
  exact .ofExcept (hm.className_eq htext)

theorem ConstantPool.Matches.exists_methodReference [Text.Encoding] {owner pair : UInt16}
    (howner : (p.className? owner).isSome) (hpair : p.IsPair pair) (index : UInt16) (offset : Nat) :
    ∃ r, pool.methodReference index offset owner pair = .ok r := by
  obtain ⟨name, descriptor, hconstant, hname, hdescriptor⟩ := hpair
  obtain ⟨name', hname'⟩ := Option.isSome_iff_exists.mp hname
  obtain ⟨descriptor', hdescriptor'⟩ := Option.isSome_iff_exists.mp hdescriptor
  obtain ⟨⟨pairOffset, _⟩, hslot, rfl⟩ :
      ∃ s, pool.slot? pair = some s ∧ s.constant = .nameAndType name descriptor := by
    rw [← hm.constant?_eq] at hconstant
    exact Option.map_eq_some_iff.mp hconstant
  obtain ⟨ownerName, hownerName⟩ := Option.isSome_iff_exists.mp howner
  obtain ⟨i, text, hclass, htext, _⟩ := Pool.classRef_of_className? hownerName
  obtain ⟨bytes, hbytes, _⟩ := Pool.utf8_of_text? hname'
  obtain ⟨bytes', hbytes', _⟩ := Pool.utf8_of_text? hdescriptor'
  unfold ConstantPool.methodReference
  simp only [hm.constant?_eq, hclass, hslot, hm.className_eq htext, hbytes, hbytes', hm.text_eq hname',
    hm.text_eq hdescriptor']
  exact ⟨_, rfl⟩

theorem ConstantPool.Matches.exists_reference [Text.Encoding] {slot : Slot} (h : p.Refers slot.constant)
    (index : UInt16) :
    ∃ r, pool.reference? index slot = .ok r := by
  obtain ⟨offset, c⟩ := slot
  cases c with
  | classRef name =>
    obtain ⟨text, htext⟩ := Option.isSome_iff_exists.mp h
    exact ⟨_, congrArg (Except.map _) (hm.className_eq htext)⟩
  | methodRef owner pair | interfaceMethodRef owner pair =>
    obtain ⟨r, hr⟩ := hm.exists_methodReference h.1 h.2 index offset
    exact ⟨_, congrArg (Except.map _) hr⟩
  | _ => exact ⟨none, rfl⟩

theorem ConstantPool.Matches.mem_constants {index : UInt16} {slot : Slot} (h : (index, slot) ∈ pool.entries) :
    slot.constant ∈ p.constants := by
  obtain ⟨⟨s, i⟩, hmem, hs⟩ := List.mem_filterMap.mp h
  obtain ⟨slot', rfl, heq⟩ := Option.map_eq_some_iff.mp hs
  cases heq
  have hslots : some slot.constant ∈ p.slots := by
    rw [← hm]
    exact List.mem_map.mpr ⟨some slot, List.fst_mem_of_mem_zipIdx hmem, rfl⟩
  rcases List.mem_cons.mp hslots with hnone | hmem
  · cases hnone
  · exact Pool.mem_slotsFrom.mp hmem

theorem ConstantPool.Matches.exists_references [Text.Encoding] (hp : p.Fits) : ∃ refs, pool.references = .ok refs := by
  have hall : ∀ e ∈ pool.entries, ∃ r, (do return (e.1, ← pool.reference? e.1 e.2) :
      Except Fault (UInt16 × Option Reference)) = .ok r := by
    intro e he
    obtain ⟨r, hr⟩ := hm.exists_reference (hp.refers _ (hm.mem_constants he)) e.1
    rw [hr]
    exact ⟨_, rfl⟩
  obtain ⟨found, hfound⟩ := exists_mapM hall
  unfold ConstantPool.references
  rw [hfound]
  exact ⟨_, rfl⟩

end Matches

end ClassCatalog.ClassFile
