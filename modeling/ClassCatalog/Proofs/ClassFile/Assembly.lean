import Mathlib.Data.List.Induction
import Mathlib.Order.Bounds.Defs
import ClassCatalog.Proofs.ClassFile.Image
import ClassCatalog.Proofs.ClassFile.Instructions

/-! Bytecode written instruction by instruction.

An `Operation` is an instruction with its operands, in one of the forms that instructions have, and `bytes` is how
it is written. The forms know nothing of how far a walk goes: that the walk takes each instruction as long as it is
written (`length?_of_holds`) is what keeps it in step with the code, so that it finds an instruction exactly where
one has been written (`start_iff`) and ends at the last one before its target (`previousStart_exact`). -/
namespace ClassCatalog.ClassFile

/-- An instruction with its operands. -/
inductive Operation where
  | plain (code : UInt8)
  /-- With a small constant, a short index into the pool, a variable or a type of elements. -/
  | short (code operand : UInt8)
  /-- With a constant, an index into the pool or the distance of a jump. -/
  | long (code : UInt8) (operand : UInt16)
  | increment (slot amount : UInt8)
  /-- Makes an array of arrays. -/
  | newArrays (type : UInt16) (dimensions : UInt8)
  /-- Calls through an interface or a call site, with two bytes behind the index. -/
  | call (code : UInt8) (index : UInt16) (count reserved : UInt8)
  | farJump (code : UInt8) (distance : UInt32)
  /-- Reads or writes a variable whose number has two bytes. -/
  | wideAccess (code : UInt8) (slot : UInt16)
  | wideIncrement (slot amount : UInt16)
  /-- Jumps by a number between the least and the greatest that has a target. -/
  | tableSwitch (padding : List UInt8) (fallback least greatest : UInt32) (targets : List UInt32)
  /-- Jumps by a number that is paired with a target. -/
  | lookupSwitch (padding : List UInt8) (fallback : UInt32) (pairs : List (UInt32 × UInt32))
deriving DecidableEq, Repr

namespace Operation

/-! ### The forms of instructions -/

def isPlain (code : UInt8) : Prop :=
  code ≤ 0x0F ∨ (0x1A ≤ code ∧ code ≤ 0x35) ∨ (0x3B ≤ code ∧ code ≤ 0x83) ∨ (0x85 ≤ code ∧ code ≤ 0x98) ∨
    (0xAC ≤ code ∧ code ≤ 0xB1) ∨ code = 0xBE ∨ code = 0xBF ∨ code = 0xC2 ∨ code = 0xC3

/-- Loads, stores and the return from a subroutine. -/
def isAccess (code : UInt8) : Prop :=
  (0x15 ≤ code ∧ code ≤ 0x19) ∨ (0x36 ≤ code ∧ code ≤ 0x3A) ∨ code = 0xA9

def isShort (code : UInt8) : Prop := code = 0x10 ∨ code = 0x12 ∨ isAccess code ∨ code = 0xBC

def isLong (code : UInt8) : Prop :=
  code = 0x11 ∨ code = 0x13 ∨ code = 0x14 ∨ (0x99 ≤ code ∧ code ≤ 0xA8) ∨ (0xB2 ≤ code ∧ code ≤ 0xB8) ∨
    code = 0xBB ∨ code = 0xBD ∨ code = 0xC0 ∨ code = 0xC1 ∨ code = 0xC6 ∨ code = 0xC7

/-- The padding puts what follows on a multiple of four. -/
def Aligns (padding : List UInt8) (offset : Nat) : Prop := padding.length < 4 ∧ (offset + 1 + padding.length) % 4 = 0

/-- An instruction that may stand at `offset`. -/
def WellFormed (offset : Nat) : Operation → Prop
  | plain code => isPlain code
  | short code _ => isShort code
  | long code _ => isLong code
  | increment _ _ | newArrays _ _ | wideIncrement _ _ => True
  | call code _ _ _ => code = 0xB9 ∨ code = 0xBA
  | farJump code _ => code = 0xC8 ∨ code = 0xC9
  | wideAccess code _ => isAccess code
  | tableSwitch padding _ least greatest targets =>
    Aligns padding offset ∧ signed least ≤ signed greatest ∧ targets.length = signed greatest - signed least + 1
  | lookupSwitch padding _ pairs => Aligns padding offset ∧ pairs.length < 2147483648

/-- The instruction as it is written. -/
def bytes : Operation → List UInt8
  | plain code => [code]
  | short code operand => [code, operand]
  | long code operand => code :: wordBytes operand
  | increment slot amount => [0x84, slot, amount]
  | newArrays type dimensions => 0xC5 :: wordBytes type ++ [dimensions]
  | call code index count reserved => code :: wordBytes index ++ [count, reserved]
  | farJump code distance => code :: longBytes distance
  | wideAccess code slot => 0xC4 :: code :: wordBytes slot
  | wideIncrement slot amount => 0xC4 :: 0x84 :: wordBytes slot ++ wordBytes amount
  | tableSwitch padding fallback least greatest targets =>
    0xAA :: padding ++ (longBytes fallback ++ longBytes least ++ longBytes greatest) ++ targets.flatMap longBytes
  | lookupSwitch padding fallback pairs =>
    0xAB :: padding ++ (longBytes fallback ++ longBytes (UInt32.ofNat pairs.length)) ++
      pairs.flatMap fun p => longBytes p.1 ++ longBytes p.2

theorem bytes_ne_nil (op : Operation) : op.bytes ≠ [] := by
  cases op <;> simp [bytes]

theorem length_bytes_pos (op : Operation) : 0 < op.bytes.length := List.length_pos_iff.mpr op.bytes_ne_nil

end Operation

/-! ### How far a walk goes -/

namespace Instruction
open Operation
variable {b : Bytes} {offset n : Nat} {code next : UInt8}

theorem fixedLength_of_isPlain (h : isPlain code) : fixedLength code = some 1 := by
  simp only [isPlain, UInt8.le_iff_toNat_le, ← UInt8.toNat_inj, UInt8.reduceToNat] at h
  unfold fixedLength
  dsimp only
  rw [if_neg (by omega), if_neg (by omega), if_neg (by omega), if_neg (by omega), if_neg (by omega)]

theorem fixedLength_of_isShort (h : isShort code) : fixedLength code = some 2 := by
  simp only [isShort, isAccess, UInt8.le_iff_toNat_le, ← UInt8.toNat_inj, UInt8.reduceToNat] at h
  unfold fixedLength
  dsimp only
  rw [if_neg (by omega), if_pos (by omega)]

theorem fixedLength_of_isLong (h : isLong code) : fixedLength code = some 3 := by
  simp only [isLong, UInt8.le_iff_toNat_le, ← UInt8.toNat_inj, UInt8.reduceToNat] at h
  unfold fixedLength
  dsimp only
  rw [if_neg (by omega), if_neg (by omega), if_pos (by omega)]

theorem isLocalAccess_of_isAccess (h : isAccess code) : isLocalAccess code = true := by
  unfold isLocalAccess
  rcases h with ⟨hleast, hgreatest⟩ | ⟨hleast, hgreatest⟩ | rfl
  · simp [hleast, hgreatest]
  · simp [hleast, hgreatest]
  · rfl

theorem length?_of_fixed (hcode : b[offset]? = some code) (hn : fixedLength code = some n) :
    length? b offset = some n := by
  have hvariable : ¬ (code == wide) = true ∧ ¬ (code == tableSwitch) = true ∧ ¬ (code == lookupSwitch) = true := by
    refine ⟨?_, ?_, ?_⟩ <;> rintro h <;> rw [beq_iff_eq] at h <;> subst h <;> cases hn
  unfold length?
  rw [hcode, Option.bind_eq_bind, Option.bind_some, if_neg hvariable.1, if_neg hvariable.2.1, if_neg hvariable.2.2, hn]

theorem length?_of_wide (hcode : b[offset]? = some wide) (hnext : b[offset + 1]? = some next) :
    length? b offset = some (wideLength (some next)) := by
  unfold length?
  rw [hcode, Option.bind_eq_bind, Option.bind_some, if_pos (beq_self_eq_true wide), hnext]
  rfl

theorem operands_of_aligns {padding : List UInt8} (h : Aligns padding offset) :
    operands offset = offset + 1 + padding.length := by
  obtain ⟨hshort, haligned⟩ := h
  unfold operands
  omega

theorem length?_of_tableSwitch {fallback least greatest : UInt32} (hcode : b[offset]? = some tableSwitch)
    (hoperands : b.Holds (operands offset) (longBytes fallback ++ longBytes least ++ longBytes greatest)) :
    length? b offset =
      some (operands offset + 12 + (signed greatest - signed least + 1).toNat * 4 - offset) := by
  rw [Bytes.holds_append, Bytes.holds_append] at hoperands
  obtain ⟨⟨_, hleast⟩, hgreatest⟩ := hoperands
  unfold length?
  rw [hcode, Option.bind_eq_bind, Option.bind_some, if_neg (by decide), if_pos (beq_self_eq_true tableSwitch)]
  rw [show b.long? (operands offset + 4) = some least from hleast.long?]
  rw [show b.long? (operands offset + 8) = some greatest from hgreatest.long?]
  rfl

theorem length?_of_lookupSwitch {fallback pairs : UInt32} (hcode : b[offset]? = some lookupSwitch)
    (hoperands : b.Holds (operands offset) (longBytes fallback ++ longBytes pairs)) :
    length? b offset = some (operands offset + 8 + (signed pairs).toNat * 8 - offset) := by
  rw [Bytes.holds_append] at hoperands
  obtain ⟨_, hpairs⟩ := hoperands
  unfold length?
  rw [hcode, Option.bind_eq_bind, Option.bind_some, if_neg (by decide), if_neg (by decide),
    if_pos (beq_self_eq_true lookupSwitch)]
  rw [show b.long? (operands offset + 4) = some pairs from hpairs.long?]
  rfl

theorem signed_ofNat {n : Nat} (h : n < 2147483648) : signed (UInt32.ofNat n) = n := by
  have hn : (UInt32.ofNat n).toNat = n := UInt32.toNat_ofNat_of_lt' (Nat.lt_trans h (by decide))
  unfold signed
  rw [hn, if_pos h]

/-- An instruction is as long as it is written. -/
theorem length?_of_holds {op : Operation} (h : op.WellFormed offset) (hb : b.Holds offset op.bytes) :
    length? b offset = some op.bytes.length := by
  cases op with
  | plain code => exact length?_of_fixed (Bytes.holds_cons.mp hb).1 (fixedLength_of_isPlain h)
  | short code operand => exact length?_of_fixed (Bytes.holds_cons.mp hb).1 (fixedLength_of_isShort h)
  | long code operand => exact length?_of_fixed (Bytes.holds_cons.mp hb).1 (fixedLength_of_isLong h)
  | increment slot amount => exact length?_of_fixed (Bytes.holds_cons.mp hb).1 rfl
  | newArrays type dimensions => exact length?_of_fixed (Bytes.holds_cons.mp hb).1 rfl
  | call code index count reserved =>
    refine length?_of_fixed (Bytes.holds_cons.mp hb).1 ?_
    rcases h with rfl | rfl <;> rfl
  | farJump code distance =>
    refine length?_of_fixed (Bytes.holds_cons.mp hb).1 ?_
    rcases h with rfl | rfl <;> rfl
  | wideAccess code slot =>
    obtain ⟨hwide, hrest⟩ := Bytes.holds_cons.mp hb
    rw [length?_of_wide hwide (Bytes.holds_cons.mp hrest).1, wideLength, if_pos (isLocalAccess_of_isAccess h)]
    rfl
  | wideIncrement slot amount =>
    obtain ⟨hwide, hrest⟩ := Bytes.holds_cons.mp hb
    rw [length?_of_wide hwide (Bytes.holds_cons.mp hrest).1]
    rfl
  | tableSwitch padding fallback least greatest targets =>
    obtain ⟨haligns, hle, htargets⟩ := h
    have hplace := operands_of_aligns haligns
    obtain ⟨hhead, hoperands⟩ := Bytes.holds_append.mp (Bytes.holds_append.mp hb).1
    rw [List.length_cons, Nat.add_comm padding.length, ← Nat.add_assoc, ← hplace] at hoperands
    rw [length?_of_tableSwitch (Bytes.holds_cons.mp hhead).1 hoperands, hplace]
    simp only [bytes, List.length_cons, List.length_append, longBytes_length,
      Image.flatMap_length_of_const longBytes_length targets]
    congr 1
    omega
  | lookupSwitch padding fallback pairs =>
    obtain ⟨haligns, hpairs⟩ := h
    have hplace := operands_of_aligns haligns
    obtain ⟨hhead, hoperands⟩ := Bytes.holds_append.mp (Bytes.holds_append.mp hb).1
    rw [List.length_cons, Nat.add_comm padding.length, ← Nat.add_assoc, ← hplace] at hoperands
    rw [length?_of_lookupSwitch (Bytes.holds_cons.mp hhead).1 hoperands, hplace]
    have hsize : (pairs.flatMap fun p => longBytes p.1 ++ longBytes p.2).length = 8 * pairs.length :=
      Image.flatMap_length_of_const (k := 8) (fun _ => rfl) pairs
    simp only [bytes, List.length_cons, List.length_append, longBytes_length, hsize, signed_ofNat hpairs]
    congr 1
    omega

end Instruction

/-! ### Code -/

/-- Instructions written one behind the other. -/
def assemble (ops : List Operation) : List UInt8 := ops.flatMap Operation.bytes

/-- Each instruction may stand where it comes to stand. -/
def WellFormedFrom : Nat → List Operation → Prop
  | _, [] => True
  | offset, op :: rest => op.WellFormed offset ∧ WellFormedFrom (offset + op.bytes.length) rest

section
variable {ops before after : List Operation} {op : Operation} {a offset : Nat}

theorem length_assemble_append (before after : List Operation) :
    (assemble (before ++ after)).length = (assemble before).length + (assemble after).length := by
  rw [assemble, List.flatMap_append, List.length_append]
  rfl

theorem length_assemble_concat (before : List Operation) (op : Operation) :
    (assemble (before ++ [op])).length = (assemble before).length + op.bytes.length := by
  rw [length_assemble_append]
  congr 1
  exact congrArg List.length (List.flatMap_singleton ..)

theorem wellFormedFrom_append : WellFormedFrom offset (before ++ after) ↔
    WellFormedFrom offset before ∧ WellFormedFrom (offset + (assemble before).length) after := by
  induction before generalizing offset with
  | nil => simp [WellFormedFrom, assemble]
  | cons op rest ih =>
    rw [List.cons_append, WellFormedFrom, WellFormedFrom, ih, and_assoc, Nat.add_assoc]
    simp [assemble]

/-- An instruction in the middle of code is taken as long as it is written. -/
theorem length?_assemble (h : WellFormedFrom 0 (before ++ op :: after)) :
    Instruction.length? (assemble (before ++ op :: after)).toArray (assemble before).length =
      some op.bytes.length := by
  obtain ⟨_, hop, _⟩ := wellFormedFrom_append.mp h
  rw [Nat.zero_add] at hop
  refine Instruction.length?_of_holds hop ⟨assemble before, assemble after, ?_, rfl⟩
  simp [assemble]

theorem lt_length_assemble (before after : List Operation) (op : Operation) :
    (assemble before).length < (assemble (before ++ op :: after)).length := by
  have hlength : (assemble (op :: after)).length = op.bytes.length + (assemble after).length := by simp [assemble]
  rw [length_assemble_append, hlength]
  have := op.length_bytes_pos
  omega

/-- A walk finds instructions where they have been written, and nowhere else. -/
theorem start_iff (h : WellFormedFrom 0 ops) : Instruction.Start (assemble ops).toArray a ↔
    ∃ before op after, ops = before ++ op :: after ∧ a = (assemble before).length := by
  constructor
  · intro hstart
    induction hstart with
    | first hsize =>
      cases ops with
      | nil => cases hsize
      | cons op rest => exact ⟨[], op, rest, rfl, rfl⟩
    | next _ hlength hinside ih =>
      obtain ⟨before, op, after, rfl, rfl⟩ := ih
      rw [length?_assemble h] at hlength
      cases hlength
      cases after with
      | nil =>
        rw [List.size_toArray, length_assemble_concat] at hinside
        exact absurd hinside (Nat.lt_irrefl _)
      | cons next rest =>
        refine ⟨before ++ [op], next, rest, ?_, (length_assemble_concat before op).symm⟩
        rw [List.append_assoc, List.singleton_append]
  · rintro ⟨before, op, after, rfl, rfl⟩
    induction before using List.reverseRecOn generalizing op after with
    | nil => exact .first (List.size_toArray ▸ lt_length_assemble [] after op)
    | append_singleton before last ih =>
      rw [List.append_assoc, List.singleton_append] at h ⊢
      have hnext := (ih last (op :: after) h).next (length?_assemble h) ?_
      · rwa [← length_assemble_concat] at hnext
      · have hinside := lt_length_assemble (before ++ [last]) after op
        rwa [List.append_assoc, List.singleton_append, length_assemble_concat, ← List.size_toArray] at hinside

/-- **The instruction before an offset.** In code that is a sequence of instructions, for every offset behind the
first byte and up to the end, the walk finds where the last instruction below the offset starts. In any bytes and for
any offset it ends, after no more rounds than there are bytes and places below the offset, with the last place it has
come to, which is the beginning or a place below the offset and inside the bytes. -/
theorem previousStart_exact :
    (∀ ops target, WellFormedFrom 0 ops → 1 ≤ target → target ≤ (assemble ops).length →
      IsGreatest {a | a < target ∧ ∃ before op after, ops = before ++ op :: after ∧ a = (assemble before).length}
        (Instruction.previousStart (assemble ops).toArray target)) ∧
    ∀ code target,
      (∃ trail, Instruction.Trail code target 0 trail ∧ trail.length ≤ min target code.size ∧
        Instruction.previousStart code target = trail.getLastD 0) ∧
      (Instruction.previousStart code target = 0 ∨
        Instruction.previousStart code target < target ∧ Instruction.previousStart code target < code.size) := by
  constructor
  · intro ops target h htarget hinside
    have hsize : 0 < (assemble ops).toArray.size := by
      rw [List.size_toArray]
      omega
    obtain ⟨hstart, hless⟩ := Instruction.start_previousStart hsize htarget
    refine ⟨⟨hless, (start_iff h).mp hstart⟩, ?_⟩
    rintro a ⟨ha, hwritten⟩
    exact Instruction.le_previousStart ((start_iff h).mpr hwritten) ha
  · intro code target
    obtain ⟨trail, htrail, hwalk⟩ := Instruction.exists_trail code target 0 0
    exact ⟨⟨trail, htrail, htrail.length_le, hwalk⟩, Instruction.previousStart_bounds code target⟩

end

/-- A constant, a switch over 5 and 6 with two bytes of padding, a wide increment and a return. -/
def sampleCode : List Operation :=
  [.plain 0x03, .tableSwitch [0, 0] 30 5 6 [20, 30], .wideIncrement 1 300, .plain 0xB1]

theorem wellFormedFrom_sampleCode : WellFormedFrom 0 sampleCode := by
  refine ⟨.inl (by decide), ⟨⟨by decide, by decide⟩, by decide, by decide⟩, trivial, ?_, trivial⟩
  exact .inr (.inr (.inr (.inr (.inl (by decide)))))

theorem previousStart_exact_sample :
    IsGreatest {a | a < 30 ∧ ∃ before op after, sampleCode = before ++ op :: after ∧ a = (assemble before).length}
      (Instruction.previousStart (assemble sampleCode).toArray 30) :=
  previousStart_exact.1 sampleCode 30 wellFormedFrom_sampleCode (by decide) (by decide)

end ClassCatalog.ClassFile
