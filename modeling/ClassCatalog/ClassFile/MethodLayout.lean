import ClassCatalog.ClassFile.Attribute
import ClassCatalog.Error

/-! Layouts: where the parts of a method stand.

A method is access, name and descriptor followed by attributes; its `Code` attribute
holds the bytecode, the exception table and attributes of its own. `scan` finds them in
the bytes of one method, which may be a slice of a class file or a replacement made
later, and by the indices that name attributes. All offsets count from the start of the
method. Of several attributes of one kind the last one counts. -/
namespace ClassCatalog.ClassFile

structure CodeLayout where
  /-- Where the header of the attribute starts. -/
  header : Nat
  start : Nat
  length : Nat
  handlers : Nat
  /-- Where the number of attributes inside stands. -/
  attributeCount : Nat
deriving DecidableEq, Repr

/-- The variable and line tables are given by their length fields, the stack map by its header. -/
structure MethodLayout where
  code : Option CodeLayout
  lines : Option Nat
  localVariables : Option Nat
  localVariableTypes : Option Nat
  stackMap : Option Nat
deriving DecidableEq, Repr

namespace MethodLayout

def empty : MethodLayout := ⟨none, none, none, none, none⟩

def hasCode (l : MethodLayout) : Bool := l.code.isSome

/-- A scan fails at the position of what it could not read. -/
abbrev Scan := Except Nat

def wordAt (info : Bytes) (pos : Nat) : Scan Nat :=
  match info.word? pos with
  | some w => .ok w.toNat
  | none => .error pos

def longAt (info : Bytes) (pos : Nat) : Scan Nat :=
  match info.long? pos with
  | some n => .ok n.toNat
  | none => .error pos

/-- The kind and the end of the attribute at `pos`, which may not reach past `limit`. -/
def attributeAt (info : Bytes) (names : AttributeNames) (limit pos : Nat) :
    Scan (Option AttributeKind × Nat) := do
  let name ← wordAt info pos
  let length ← longAt info (pos + 2)
  let stop := pos + 6 + length
  if limit < stop then .error pos
  else return (names.kindOf? (UInt16.ofNat name), stop)

/-- Notes the attribute at `pos` inside the code. -/
def note (l : MethodLayout) (kind : Option AttributeKind) (pos : Nat) : MethodLayout :=
  match kind with
  | some .lineNumberTable => { l with lines := some (pos + 6) }
  | some .localVariableTable => { l with localVariables := some (pos + 6) }
  | some .localVariableTypeTable => { l with localVariableTypes := some (pos + 6) }
  | some .stackMapTable => { l with stackMap := some pos }
  | _ => l

/-- The next `count` attributes inside code that ends at `limit`. -/
def scanInside (info : Bytes) (names : AttributeNames) (limit : Nat) :
    Nat → MethodLayout → Nat → Scan MethodLayout
  | 0, l, _ => .ok l
  | count + 1, l, pos =>
    match attributeAt info names limit pos with
    | .ok (kind, stop) => scanInside info names limit count (l.note kind pos) stop
    | .error e => .error e

/-- The code attribute with its header at `pos` and its end at `stop`. -/
def scanCode (info : Bytes) (names : AttributeNames) (pos stop : Nat) (l : MethodLayout) :
    Scan MethodLayout := do
  let length ← longAt info (pos + 10)
  let start := pos + 14
  let handlers := start + length
  let handlerCount ← wordAt info handlers
  let attributeCount := handlers + 2 + 8 * handlerCount
  let count ← wordAt info attributeCount
  scanInside info names stop count
    { l with code := some ⟨pos, start, length, handlers, attributeCount⟩ } (attributeCount + 2)

/-- The next `count` attributes of the method. -/
def scanAttributes (info : Bytes) (names : AttributeNames) : Nat → MethodLayout → Nat → Scan MethodLayout
  | 0, l, _ => .ok l
  | count + 1, l, pos =>
    match attributeAt info names info.size pos with
    | .ok (kind, stop) =>
      if kind = some .code then
        match scanCode info names pos stop l with
        | .ok l => scanAttributes info names count l stop
        | .error e => .error e
      else scanAttributes info names count l stop
    | .error e => .error e

def scan (info : Bytes) (names : AttributeNames) : Scan MethodLayout := do
  let count ← wordAt info 6
  scanAttributes info names count empty 8

/-- The layout of a method of the class called `name`. -/
def ofInfo (name : String) (info : Bytes) (names : AttributeNames) : Except ClassError MethodLayout :=
  match scan info names with
  | .ok l => .ok l
  | .error pos => .error (.format name pos .truncatedMethod)

/-- The end of the code attribute, where a new attribute can be put. -/
def codeEnd? (l : MethodLayout) (info : Bytes) : Option Nat := do
  let code ← l.code
  let length ← info.long? (code.header + 2)
  return code.header + 6 + length.toNat

end MethodLayout
end ClassCatalog.ClassFile
