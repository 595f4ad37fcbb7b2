import ClassCatalog.ClassFile.ConstantPool
import ClassCatalog.ClassFile.LineTable

/-! Records: what is kept of a class file that was read.

A record holds the bytes of the file and what the reader found in them: names, the
constant pool and where each method and its code stand. Everything else, such as line
tables and method slices, is computed from the bytes when it is asked for. -/
namespace ClassCatalog.ClassFile

/-- Access bits as they stand in the file. -/
abbrev Access := UInt16

namespace Access

def has (access bit : Access) : Bool := access &&& bit == bit

def publicBit : Access := 0x0001
def privateBit : Access := 0x0002
def protectedBit : Access := 0x0004
def staticBit : Access := 0x0008
def finalBit : Access := 0x0010
def nativeBit : Access := 0x0100
def interfaceBit : Access := 0x0200
def abstractBit : Access := 0x0400

end Access

/-- Where the parts of the file start; the pool starts with its count. -/
structure Sections where
  pool : Nat
  poolCount : UInt16
  header : Nat
  fields : Nat
  methods : Nat
  attributes : Nat
deriving DecidableEq, Repr

/-- Where the code of a method stands, relative to the method. -/
structure CodeSpan where
  start : Nat
  length : Nat
  handlers : Nat
deriving DecidableEq, Repr

/-- Where a line table stands, relative to the method: its first entry and their number. -/
structure LineSpan where
  start : Nat
  count : Nat
deriving DecidableEq, Repr

structure Method where
  name : String
  signature : String
  access : Access
  infoStart : Nat
  infoLength : Nat
  code : Option CodeSpan
  lines : Option LineSpan
deriving DecidableEq, Repr

/-- Constructors and the static initializer. -/
def Method.isInitializer (m : Method) : Bool :=
  m.name = Name.constructor || m.name = Name.staticInitializer

def Method.hasCode (m : Method) : Bool := m.code.isSome

structure Record where
  name : String
  superName : Option String
  interfaces : List String
  access : Access
  methods : Array Method
  references : List (UInt16 × Reference)
  nested : List String
  sections : Sections
  pool : ConstantPool
  bytes : Bytes
deriving DecidableEq, Repr

/-- Where a source line was found. -/
inductive LineLookup where
  | found (method : Nat) (bci : Nat)
  | notFound
  | noDebugInfo
deriving DecidableEq, Repr

namespace Record

def package (r : Record) : String := Name.package r.name

def isInterface (r : Record) : Bool := r.access.has Access.interfaceBit

def isAbstract (r : Record) : Bool := r.access.has Access.abstractBit

def attributeNames (r : Record) : AttributeNames := r.pool.attributeNames

/-! ### References -/

def classRefs (r : Record) : List (UInt16 × String) :=
  r.references.filterMap fun (i, x) => x.class?.map fun n => (i, n)

def methodRefs (r : Record) : List (UInt16 × MethodRef) :=
  r.references.filterMap fun (i, x) => x.method?.map fun m => (i, m)

def classRef? (r : Record) (index : UInt16) : Option String :=
  (r.classRefs.find? fun e => e.1 = index).map Prod.snd

def methodRef? (r : Record) (index : UInt16) : Option MethodRef :=
  (r.methodRefs.find? fun e => e.1 = index).map Prod.snd

/-- The bytes of a text whose length stands at `offset`, if they are all there. -/
def textBytesAt? (r : Record) (offset : Nat) : Option Bytes := do
  let length ← r.bytes.word? offset
  r.bytes.slice? (offset + 2) length.toNat

/-- The UTF8 constant at `index`, read from the file again. -/
def text [Text.Encoding] (r : Record) (index : UInt16) : Except ClassError String :=
  match r.pool.slot? index with
  | some ⟨offset, .utf8 _⟩ =>
    match r.textBytesAt? offset with
    | some bytes =>
      match Text.Encoding.decode bytes.toList with
      | some s => .ok s
      | none => .error (.format r.name offset .invalidText)
    | none => .error (.format r.name offset .truncatedText)
  | _ => .error (.format r.name 0 (.notUtf8 index))

/-! ### Methods -/

def methodIndex? (r : Record) (name signature : String) : Option Nat :=
  r.methods.findIdx? fun m => m.name = name && m.signature = signature

/-- The method as it stands in the file. -/
def methodInfo? (r : Record) (i : Nat) : Option Bytes := do
  let m ← r.methods[i]?
  r.bytes.slice? m.infoStart m.infoLength

/-- Its bytecode; a method without code has none of it. -/
def bytecode? (r : Record) (i : Nat) : Option Bytes := do
  let m ← r.methods[i]?
  match m.code with
  | some c => r.bytes.slice? (m.infoStart + c.start) c.length
  | none => some #[]

/-- The method of `r` that overrides the virtual method `i` of `ancestor`. -/
def overriding? (r ancestor : Record) (i : Nat) : Option Nat := do
  let m ← ancestor.methods[i]?
  let own ← r.methodIndex? m.name m.signature
  if m.access.has Access.publicBit || m.access.has Access.protectedBit ||
      ancestor.package = r.package then some own else none

/-! ### Lines -/

def lineTableOf (r : Record) (m : Method) : Option LineTable :=
  m.lines.bind fun l => LineTable.read? r.bytes (m.infoStart + l.start) l.count

def lineTable? (r : Record) (i : Nat) : Option LineTable := r.methods[i]?.bind r.lineTableOf

def hasLineTables (r : Record) : Bool := r.methods.any fun m => (r.lineTableOf m).isSome

def lineBounds? (r : Record) (i : Nat) : Option (UInt16 × UInt16) :=
  (r.lineTable? i).bind LineTable.bounds?

def bciOfLine? (r : Record) (i line : Nat) : Option Nat :=
  (r.lineTable? i).bind fun t => t.bciOf? line

def lineOfBci? (r : Record) (i bci : Nat) : Option UInt16 :=
  (r.lineTable? i).bind fun t => t.lineAt? bci

/-- The methods in the order in which a line is looked for: initializers come last, since
their tables may span the whole class. -/
def searchOrder (r : Record) : List (Method × Nat) :=
  let all := r.methods.toList.zipIdx
  all.filter (fun m => !m.1.isInitializer) ++ all.filter (fun m => m.1.isInitializer)

def findLine (r : Record) (line : Nat) : LineLookup :=
  if r.hasLineTables then
    match r.searchOrder.findSome? fun (m, i) =>
        ((r.lineTableOf m).bind fun t => t.bciOf? line).map fun bci => (i, bci) with
    | some (i, bci) => .found i bci
    | none => .notFound
  else .noDebugInfo

end Record
end ClassCatalog.ClassFile
