import ClassCatalog.Bytes

/-! The attributes the catalog looks into, and the constants that name them.

Attributes are named by index into a constant pool. `AttributeNames` remembers which
indices name which kind; of two indices for one kind, or two kinds for one index, the one
that came first counts. -/
namespace ClassCatalog.ClassFile

inductive AttributeKind where
  | code
  | lineNumberTable
  | localVariableTable
  | localVariableTypeTable
  | stackMapTable
  | innerClasses
deriving DecidableEq, Repr

namespace AttributeKind

def all : List AttributeKind :=
  [code, lineNumberTable, localVariableTable, localVariableTypeTable, stackMapTable, innerClasses]

def name : AttributeKind → String
  | code => "Code"
  | lineNumberTable => "LineNumberTable"
  | localVariableTable => "LocalVariableTable"
  | localVariableTypeTable => "LocalVariableTypeTable"
  | stackMapTable => "StackMapTable"
  | innerClasses => "InnerClasses"

/-- The name as bytes; all of it is ASCII. -/
def nameBytes (k : AttributeKind) : List UInt8 := k.name.toList.map fun c => UInt8.ofNat c.toNat

def ofBytes? (bytes : List UInt8) : Option AttributeKind := all.find? fun k => k.nameBytes = bytes

end AttributeKind

structure AttributeNames where
  entries : List (UInt16 × AttributeKind)
deriving DecidableEq, Repr

namespace AttributeNames

def add (names : AttributeNames) (index : UInt16) (kind : AttributeKind) : AttributeNames :=
  if (index, kind) ∈ names.entries then names else ⟨names.entries ++ [(index, kind)]⟩

def kindOf? (names : AttributeNames) (index : UInt16) : Option AttributeKind :=
  (names.entries.find? fun e => e.1 = index).map Prod.snd

def indexOf? (names : AttributeNames) (kind : AttributeKind) : Option UInt16 :=
  (names.entries.find? fun e => e.2 = kind).map Prod.fst

end AttributeNames
end ClassCatalog.ClassFile
