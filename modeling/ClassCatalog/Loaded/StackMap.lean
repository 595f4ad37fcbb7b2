import ClassCatalog.Loaded.Body

/-! Stack maps of loaded classes.

The stack map of a method is read from its current body. Writing one back makes a new
body: the table takes the place of the old one, or is added behind the last attribute of
the code, and the lengths around it are put right. -/
namespace ClassCatalog.LoadedClass
open ClassFile

/-- The table of the current body; empty when there is none. -/
def stackMap (i : Nat) : Action LoadedClass StackMap.Table := do
  let c ← Action.state
  match ← codeLayout i with
  | none => return .empty
  | some (info, l, _) =>
    match l.stackMap with
    | none => return .empty
    | some header =>
      let length := ((info.long? (header + 2)).map UInt32.toNat).getD 0
      match info.slice? (header + 6) length with
      | none => Action.fail (.format c.name header .truncatedStackMap)
      | some table => Action.ofExcept (StackMap.Table.decode c.name table.toList)

/-- A body with the table at `header` exchanged, and by how much it has grown. -/
def exchange (info : Bytes) (header : Nat) (table : List UInt8) : Option (Bytes × Int) := do
  let old ← info.long? (header + 2)
  let info := info.splice (header + 6) old.toNat table
  return (info.setLong (header + 2) (UInt32.ofNat table.length), table.length - old.toNat)

/-- A body with a table added at the end of its code, and by how much it has grown. -/
def append (info : Bytes) (l : MethodLayout) (code : CodeLayout) (name : UInt16)
    (table : List UInt8) : Option (Bytes × Int) := do
  let stop ← l.codeEnd? info
  let added := wordBytes name ++ longBytes (UInt32.ofNat table.length) ++ table
  let info := info.splice stop 0 added
  let count ← info.word? code.attributeCount
  return (info.setWord code.attributeCount (count + 1), added.length)

/-- A body whose code has grown, with the length of the code put right. -/
def grow (info : Bytes) (code : CodeLayout) (growth : Int) : Option Bytes := do
  let old ← info.long? (code.header + 2)
  let length := old.toNat + growth
  if 0 ≤ length ∧ length < 4294967296 then
    return info.setLong (code.header + 2) (UInt32.ofNat length.toNat)
  else none

/-- The body with `table` written into it; nothing when an empty table has no place yet. -/
def withStackMap (c : LoadedClass) (info : Bytes) (l : MethodLayout) (code : CodeLayout)
    (t : StackMap.Table) : Except ClassError (Option Bytes) :=
  let inconsistent := ClassError.format c.name code.header .inconsistentCode
  let finish : Option (Bytes × Int) → Except ClassError (Option Bytes)
    | none => .error inconsistent
    | some (info, growth) =>
      match grow info code growth with
      | some info => .ok (some info)
      | none => .error inconsistent
  match l.stackMap with
  | some header => finish (exchange info header t.encode)
  | none =>
    if t.frames.isEmpty then .ok none
    else
      match c.attributeNames.indexOf? .stackMapTable with
      | none => .error (.misplaced (.noStackMapName c.name))
      | some name => finish (append info l code name t.encode)

def putStackMap (i : Nat) (t : StackMap.Table) : Action LoadedClass Unit := do
  let c ← Action.state
  match ← codeLayout i with
  | none => Action.fail (.misplaced (.noCode c.name i))
  | some (info, l, code) =>
    match c.withStackMap info l code t with
    | .error e => Action.fail e
    | .ok none => return ()
    | .ok (some info) => replaceBody i info

/-- Follows an edit of the code; answers whether the table changed. -/
def editStackMap (i : Nat) (e : StackMap.Edit) : Action LoadedClass Bool := do
  let edited := e.apply (← stackMap i)
  match edited.stopped with
  | some cause => Action.fail (.misplaced cause)
  | none =>
    if edited.changed then putStackMap i edited.value
    return edited.changed

def addFullFrame (i offset : Nat) (locals stack : List StackMap.VerificationType) :
    Action LoadedClass Unit := do
  match (← stackMap i).addFull offset locals stack with
  | .error cause => Action.fail (.misplaced cause)
  | .ok t => putStackMap i t

end ClassCatalog.LoadedClass
