import ClassCatalog.ClassFile.Reader
import ClassCatalog.ClassFile.Record
import ClassCatalog.ClassFile.Version

/-! Class files, read in one pass.

`Record.parse` reads the whole file in order: version, constant pool, header, fields,
methods, attributes. Of the attributes it looks into `Code`, `LineNumberTable` and
`InnerClasses`; all others, and the fields, are passed over by their declared lengths.

An error names the class as soon as its name is known, and no class before. The
references of the pool are followed once the pool has been read, and what is wrong with
them is reported at its end. -/
namespace ClassCatalog.ClassFile
open Reader

variable [Text.Encoding]

/-! ### Version and constant pool -/

def version : Reader Unit := do
  let start ← u32
  if start ≠ Version.magic then fail .illegalStart
  let minor ← u16
  let major ← u16
  if Version.supported major minor then return ()
  else fail (.unsupportedVersion major minor)

/-- The constant behind a tag. -/
def constant (tag : UInt8) : Reader Constant :=
  match tag.toNat with
  | 1 => do
    let n ← u16
    return .utf8 (← take n.toNat)
  | 3 => do ahead 4; return .integer (← u32)
  | 4 => do ahead 4; return .float (← u32)
  | 5 => do ahead 8; return .long (← u32) (← u32)
  | 6 => do ahead 8; return .double (← u32) (← u32)
  | 7 => do ahead 2; return .classRef (← u16)
  | 8 => do ahead 2; return .string (← u16)
  | 9 => do ahead 4; return .fieldRef (← u16) (← u16)
  | 10 => do ahead 4; return .methodRef (← u16) (← u16)
  | 11 => do ahead 4; return .interfaceMethodRef (← u16) (← u16)
  | 12 => do ahead 4; return .nameAndType (← u16) (← u16)
  | 15 => do ahead 3; return .methodHandle (← u8) (← u16)
  | 16 => do ahead 2; return .methodType (← u16)
  | 17 => do ahead 4; return .dynamic (← u16) (← u16)
  | 18 => do ahead 4; return .invokeDynamic (← u16) (← u16)
  | 19 => do ahead 2; return .module (← u16)
  | 20 => do ahead 2; return .package (← u16)
  | _ => do
    let tagStart := (← position) - 1
    moveTo tagStart
    fail (.badTag tag tagStart)

/-- The slots read so far, and whether the next one is taken by the constant before it. -/
structure Filling where
  slots : Array (Option Slot)
  taken : Bool

def fillSlot (f : Filling) : Reader Filling :=
  if f.taken then return ⟨f.slots.push none, false⟩
  else do
    let tag ← u8
    let offset ← position
    let c ← constant tag
    return ⟨f.slots.push (some ⟨offset, c⟩), c.isWide⟩

/-- The pool of `count` slots, the first of them empty. -/
def constantPool (count : UInt16) : Reader ConstantPool := do
  let first := if count = 0 then #[] else #[none]
  let f ← loop (count.toNat - 1) fillSlot ⟨first, false⟩
  return ⟨f.slots⟩

/-! ### Header -/

def classAt (pool : ConstantPool) (index : UInt16) (role : Role) : Reader String :=
  match pool.constant? index with
  | some (.classRef name) => ofExcept (pool.className name)
  | _ => fail (.badReference index role)

/-- What is read up to the class's own name. -/
structure Opening where
  poolStart : Nat
  poolCount : UInt16
  pool : ConstantPool
  references : List (UInt16 × Reference)
  headerStart : Nat
  access : Access
  name : String

def opening : Reader Opening := do
  version
  let poolStart ← position
  let poolCount ← u16
  let pool ← constantPool poolCount
  let references ← ofExcept pool.references
  let headerStart ← position
  let access ← u16
  let name ← classAt pool (← u16) .thisClass
  return { poolStart, poolCount, pool, references, headerStart, access, name }

/-- The super class; only the class at the root of the hierarchy may have none. -/
def superClass (pool : ConstantPool) (name : String) : Reader (Option String) := do
  let index ← u16
  if index = 0 ∧ name = Name.object then return none
  else return some (← classAt pool index .superClass)

def interfaceNames (pool : ConstantPool) : Reader (List String) := do
  let count ← u16
  let names ← loop count.toNat (fun (names : Array String) => do
    return names.push (← classAt pool (← u16) .interface)) #[]
  return names.toList

/-! ### Fields -/

def skipAttribute : Reader Unit := do
  skip 2
  let length ← u32
  skip length.toNat

def skipField : Reader Unit := do
  skip 6
  let count ← u16
  loop count.toNat (fun _ => skipAttribute) ()

def skipFields : Reader Unit := do
  let count ← u16
  loop count.toNat (fun _ => skipField) ()

/-! ### Methods -/

/-- What the attributes of a method have told so far; of several, the last one counts. -/
structure MethodBody where
  code : Option CodeSpan
  lines : Option LineSpan

/-- An attribute inside a `Code` attribute that ends at `codeEnd`. -/
def codeAttribute (pool : ConstantPool) (infoStart codeEnd : Nat) (body : MethodBody) :
    Reader MethodBody := do
  let nameIndex ← u16
  let length ← u32
  let stop := (← position) + length.toNat
  if codeEnd < stop then fail .subAttributePastEnd
  let name ← ofExcept (pool.text nameIndex)
  if name = AttributeKind.lineNumberTable.name then do
    let count ← u16
    let start ← position
    skip (4 * count.toNat)
    moveTo stop
    return { body with lines := some ⟨start - infoStart, count.toNat⟩ }
  else do
    moveTo stop
    return body

def codeBody (pool : ConstantPool) (infoStart codeEnd : Nat) (body : MethodBody) :
    Reader MethodBody := do
  skip 4
  let length ← u32
  let start ← position
  skip length.toNat
  let handlersStart ← position
  let handlers ← u16
  skip (8 * handlers.toNat)
  let count ← u16
  let span : CodeSpan := ⟨start - infoStart, length.toNat, handlersStart - infoStart⟩
  loop count.toNat (codeAttribute pool infoStart codeEnd) { body with code := some span }

def methodAttribute (pool : ConstantPool) (infoStart : Nat) (body : MethodBody) :
    Reader MethodBody := do
  let nameIndex ← u16
  let length ← u32
  let stop := (← position) + length.toNat
  reach stop (.attributePastEnd length.toNat)
  let name ← ofExcept (pool.text nameIndex)
  let body ← if name = AttributeKind.code.name then codeBody pool infoStart stop body else pure body
  moveTo stop
  return body

def method (pool : ConstantPool) : Reader Method := do
  let infoStart ← position
  let access ← u16
  let nameIndex ← u16
  let name ← ofExcept (pool.text nameIndex)
  let signatureIndex ← u16
  let signature ← ofExcept (pool.text signatureIndex)
  let count ← u16
  let body ← loop count.toNat (methodAttribute pool infoStart) ⟨none, none⟩
  let infoEnd ← position
  return { name, signature, access, infoStart, infoLength := infoEnd - infoStart,
           code := body.code, lines := body.lines }

def methodList (pool : ConstantPool) : Reader (Array Method) := do
  let count ← u16
  loop count.toNat (fun methods => do return methods.push (← method pool)) #[]

/-! ### Nested classes -/

/-- The direct members found so far, and how many local and anonymous classes are among them. -/
structure Nesting where
  unnamed : Nat
  members : Array String

/-- One inner class. A member is called `Outer$Simple`, a local class `Outer$1$Simple` and an
anonymous one `Outer$1`, where local and anonymous classes are numbered together from 1. All
other entries name classes that are not directly nested. -/
def innerClass (pool : ConstantPool) (outer : String) (n : Nesting) : Reader Nesting := do
  let inner ← u16
  skipOuter
  let simple ← u16
  skipOuter
  let full ← classAt pool inner .innerClass
  if simple = 0 then
    let number := n.unnamed + 1
    if full = outer ++ "$" ++ toString number then return ⟨number, n.members.push full⟩
    else return { n with unnamed := number }
  else do
    let simple ← ofExcept (pool.text simple)
    if full = outer ++ "$" ++ simple then return { n with members := n.members.push full }
    else
      let number := n.unnamed + 1
      if full = outer ++ "$" ++ toString number ++ "$" ++ simple then
        return ⟨number, n.members.push full⟩
      else return n
where
  /-- The outer class and the access bits, which do not matter. -/
  skipOuter : Reader Unit := do
    let _ ← u16
    return ()

/-- A class attribute. The first `InnerClasses` ends the search and the reading. -/
def classAttribute (pool : ConstantPool) (outer : String) :
    Option (List String) → Reader (Option (List String))
  | some members => return some members
  | none => do
    let nameIndex ← u16
    let length ← u32
    let name ← ofExcept (pool.text nameIndex)
    if name = AttributeKind.innerClasses.name then do
      let count ← u16
      let n ← loop count.toNat (innerClass pool outer) ⟨0, #[]⟩
      return some n.members.toList
    else do
      skip length.toNat
      return none

def nestedClasses (pool : ConstantPool) (outer : String) : Reader (List String) := do
  let count ← u16
  let found ← loop count.toNat (classAttribute pool outer) none
  return found.getD []

/-! ### The whole file -/

/-- What follows the class's own name. -/
def remainder (f : Opening) (bytes : Bytes) : Reader Record := do
  let superName ← superClass f.pool f.name
  let interfaces ← interfaceNames f.pool
  let fields ← position
  skipFields
  let methodsStart ← position
  let methods ← methodList f.pool
  let attributes ← position
  let nested ← nestedClasses f.pool f.name
  return { name := f.name, superName, interfaces, access := f.access, methods,
           references := f.references, nested, pool := f.pool, bytes
           sections := { pool := f.poolStart, poolCount := f.poolCount, header := f.headerStart,
                         fields, methods := methodsStart, attributes } }

/-- The record of a class file. Bytes after its end are not looked at. -/
def Record.parse (bytes : Bytes) : Except ClassError Record :=
  match opening.run bytes 0 with
  | .error e => .error (e.inClass "")
  | .ok (f, pos) =>
    match (remainder f bytes).run bytes pos with
    | .error e => .error (e.inClass f.name)
    | .ok (r, _) => .ok r

end ClassCatalog.ClassFile
