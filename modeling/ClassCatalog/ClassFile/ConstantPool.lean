import ClassCatalog.ClassFile.Attribute
import ClassCatalog.Error
import ClassCatalog.Name
import ClassCatalog.Text.Encoding

/-! Constant pools.

A pool has a slot for every index. Slot 0 is empty, and so is the slot after a long or
a double, which takes two. A class constant points to the UTF8 constant with its name,
a method reference to its owner and to a name and type; `reference?` follows these
pointers and says which one is wrong. -/
namespace ClassCatalog.ClassFile

inductive Constant where
  | utf8 (bytes : Bytes)
  | integer (bits : UInt32)
  | float (bits : UInt32)
  | long (high low : UInt32)
  | double (high low : UInt32)
  | classRef (name : UInt16)
  | string (text : UInt16)
  | fieldRef (owner nameAndType : UInt16)
  | methodRef (owner nameAndType : UInt16)
  | interfaceMethodRef (owner nameAndType : UInt16)
  | nameAndType (name descriptor : UInt16)
  | methodHandle (kind : UInt8) (reference : UInt16)
  | methodType (descriptor : UInt16)
  | dynamic (bootstrap nameAndType : UInt16)
  | invokeDynamic (bootstrap nameAndType : UInt16)
  | module (name : UInt16)
  | package (name : UInt16)
deriving DecidableEq, Repr

namespace Constant

def tag : Constant → UInt8
  | utf8 _ => 1
  | integer _ => 3
  | float _ => 4
  | long .. => 5
  | double .. => 6
  | classRef _ => 7
  | string _ => 8
  | fieldRef .. => 9
  | methodRef .. => 10
  | interfaceMethodRef .. => 11
  | nameAndType .. => 12
  | methodHandle .. => 15
  | methodType _ => 16
  | dynamic .. => 17
  | invokeDynamic .. => 18
  | module _ => 19
  | package _ => 20

/-- Whether the constant takes the slot after its own as well. -/
def isWide : Constant → Bool
  | long .. | double .. => true
  | _ => false

end Constant

/-- A constant and the offset just past its tag. -/
structure Slot where
  offset : Nat
  constant : Constant
deriving DecidableEq, Repr

/-- A method named from the pool. -/
structure MethodRef where
  owner : String
  name : String
  signature : String
deriving DecidableEq, Repr

inductive Reference where
  | toClass (name : String)
  | toMethod (method : MethodRef)
deriving DecidableEq, Repr

def Reference.class? : Reference → Option String
  | toClass name => some name
  | toMethod _ => none

def Reference.method? : Reference → Option MethodRef
  | toClass _ => none
  | toMethod m => some m

structure ConstantPool where
  slots : Array (Option Slot)
deriving DecidableEq, Repr

namespace ConstantPool

def size (pool : ConstantPool) : Nat := pool.slots.size

def slot? (pool : ConstantPool) (index : UInt16) : Option Slot := pool.slots[index.toNat]?.join

def constant? (pool : ConstantPool) (index : UInt16) : Option Constant :=
  (pool.slot? index).map Slot.constant

/-- The tag in a slot of the pool, 0 for an empty one. -/
def tag? (pool : ConstantPool) (index : UInt16) : Option UInt8 :=
  pool.slots[index.toNat]?.map fun s => (s.map fun s => s.constant.tag).getD 0

def tags (pool : ConstantPool) : List UInt8 :=
  pool.slots.toList.map fun s => (s.map fun s => s.constant.tag).getD 0

def offsets (pool : ConstantPool) : List Nat :=
  pool.slots.toList.map fun s => (s.map Slot.offset).getD 0

/-- The filled slots with their indices, in ascending order. -/
def entries (pool : ConstantPool) : List (UInt16 × Slot) :=
  pool.slots.toList.zipIdx.filterMap fun (s, i) => s.map fun s => (UInt16.ofNat i, s)

/-! ### Following references -/

variable [Text.Encoding]

def text (pool : ConstantPool) (index : UInt16) : Except Fault String :=
  match pool.constant? index with
  | some (.utf8 bytes) =>
    match Text.Encoding.decode bytes.toList with
    | some s => .ok s
    | none => .error (.undecodable index)
  | _ => .error (.notUtf8 index)

def className (pool : ConstantPool) (index : UInt16) : Except Fault String :=
  (pool.text index).map Name.ofConstant

def methodReference (pool : ConstantPool) (index : UInt16) (offset : Nat)
    (owner nameAndType : UInt16) : Except Fault MethodRef :=
  match pool.constant? owner, pool.slot? nameAndType with
  | some (.classRef ownerName), some ⟨pairOffset, .nameAndType name descriptor⟩ => do
    let owner ← pool.className ownerName
    match pool.constant? name, pool.constant? descriptor with
    | some (.utf8 _), some (.utf8 _) => return ⟨owner, ← pool.text name, ← pool.text descriptor⟩
    | _, _ => .error (.badEntry pairOffset index)
  | _, _ => .error (.badEntry offset index)

/-- What the constant in a slot refers to, for classes and methods. -/
def reference? (pool : ConstantPool) (index : UInt16) (slot : Slot) :
    Except Fault (Option Reference) :=
  match slot.constant with
  | .classRef name => (pool.className name).map fun n => some (.toClass n)
  | .methodRef owner nameAndType | .interfaceMethodRef owner nameAndType =>
    (pool.methodReference index slot.offset owner nameAndType).map fun m => some (.toMethod m)
  | _ => .ok none

/-- All references of the pool by index. The first wrong one is reported. -/
def references (pool : ConstantPool) : Except Fault (List (UInt16 × Reference)) := do
  let found ← pool.entries.mapM fun (i, s) => do return (i, ← pool.reference? i s)
  return found.filterMap fun (i, r) => r.map fun r => (i, r)

def attributeNames (pool : ConstantPool) : AttributeNames :=
  ⟨pool.entries.filterMap fun (i, s) =>
    match s.constant with
    | .utf8 bytes => (AttributeKind.ofBytes? bytes.toList).map fun k => (i, k)
    | _ => none⟩

end ConstantPool
end ClassCatalog.ClassFile
