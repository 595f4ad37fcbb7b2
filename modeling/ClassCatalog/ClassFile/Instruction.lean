import ClassCatalog.Bytes

/-! Instructions in bytecode.

Only their lengths matter here: `length?` is how far the next instruction is from the
one at an offset, and `previousStart` walks from the beginning to find where the last
instruction before an offset starts. Switches are padded so that their tables stand on
multiples of four from the start of the code. -/
namespace ClassCatalog.ClassFile.Instruction

def tableSwitch : UInt8 := 0xAA
def lookupSwitch : UInt8 := 0xAB
def wide : UInt8 := 0xC4
def increment : UInt8 := 0x84

/-- The length of an instruction whose length is fixed; none for the two switches and `wide`. -/
def fixedLength (op : UInt8) : Option Nat :=
  let n := op.toNat
  if n = 0xAA ∨ n = 0xAB ∨ n = 0xC4 then none
  else if n = 0x10 ∨ n = 0x12 ∨ (0x15 ≤ n ∧ n ≤ 0x19) ∨ (0x36 ≤ n ∧ n ≤ 0x3A) ∨ n = 0xA9 ∨ n = 0xBC then
    some 2
  else if n = 0x11 ∨ n = 0x13 ∨ n = 0x14 ∨ n = 0x84 ∨ (0x99 ≤ n ∧ n ≤ 0xA8) ∨ (0xB2 ≤ n ∧ n ≤ 0xB8) ∨
      n = 0xBB ∨ n = 0xBD ∨ n = 0xC0 ∨ n = 0xC1 ∨ n = 0xC6 ∨ n = 0xC7 then some 3
  else if n = 0xC5 then some 4
  else if n = 0xB9 ∨ n = 0xBA ∨ n = 0xC8 ∨ n = 0xC9 then some 5
  else some 1

theorem fixedLength_pos {op : UInt8} {n : Nat} (h : fixedLength op = some n) : 0 < n := by
  unfold fixedLength at h
  simp only at h
  split at h
  · cases h
  · repeat' split at h
    all_goals cases h; decide

def isReturn (op : UInt8) : Bool := 0xAC ≤ op && op ≤ 0xB1

def isGoto (op : UInt8) : Bool := op == 0xA7 || op == 0xC8

/-- Loads, stores and `ret`, whose operand `wide` makes two bytes long. -/
def isLocalAccess (op : UInt8) : Bool :=
  (0x15 ≤ op && op ≤ 0x19) || (0x36 ≤ op && op ≤ 0x3A) || op == 0xA9

/-- The length of a `wide` with the given instruction after it. -/
def wideLength : Option UInt8 → Nat
  | some op => if isLocalAccess op then 4 else if op == increment then 6 else 1
  | none => 1

theorem wideLength_pos (op : Option UInt8) : 0 < wideLength op := by
  unfold wideLength
  repeat' split
  all_goals decide

/-- Where the operands of a switch at `offset` stand. -/
def operands (offset : Nat) : Nat := (offset + 4) / 4 * 4

def length? (code : Bytes) (offset : Nat) : Option Nat := do
  let op ← code[offset]?
  if op == wide then
    return wideLength code[offset + 1]?
  else if op == tableSwitch then
    let least ← code.long? (operands offset + 4)
    let greatest ← code.long? (operands offset + 8)
    return operands offset + 12 + (signed greatest - signed least + 1).toNat * 4 - offset
  else if op == lookupSwitch then
    let pairs ← code.long? (operands offset + 4)
    return operands offset + 8 + (signed pairs).toNat * 8 - offset
  else fixedLength op

theorem offset_lt_operands (offset : Nat) : offset < operands offset := by
  unfold operands
  omega

theorem length?_pos {code : Bytes} {offset n : Nat} (h : length? code offset = some n) : 0 < n := by
  have ho := offset_lt_operands offset
  unfold length? at h
  simp only [Option.bind_eq_bind, Option.pure_def] at h
  obtain ⟨op, _, h⟩ := Option.bind_eq_some_iff.mp h
  split at h
  · cases h
    exact wideLength_pos _
  split at h
  · obtain ⟨least, _, h⟩ := Option.bind_eq_some_iff.mp h
    obtain ⟨greatest, _, h⟩ := Option.bind_eq_some_iff.mp h
    cases h
    omega
  split at h
  · obtain ⟨pairs, _, h⟩ := Option.bind_eq_some_iff.mp h
    cases h
    omega
  · exact fixedLength_pos h

/-- The last instruction start below `target`, going on from `offset`, before which the last
one was at `last`. The walk stops where a switch is cut off. -/
def walk (code : Bytes) (target last offset : Nat) : Nat :=
  if offset < target ∧ offset < code.size then
    match _h : length? code offset with
    | none => offset
    | some n => walk code target offset (offset + n)
  else last
termination_by code.size - offset
decreasing_by
  have := length?_pos _h
  omega

/-- Where the instruction before `target` starts; 0 when there is none. -/
def previousStart (code : Bytes) (target : Nat) : Nat := walk code target 0 0

end ClassCatalog.ClassFile.Instruction
