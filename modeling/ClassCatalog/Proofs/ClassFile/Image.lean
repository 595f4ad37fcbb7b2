import ClassCatalog.ClassFile.ConstantPool
import ClassCatalog.ClassFile.LineTable
import ClassCatalog.ClassFile.Version
import ClassCatalog.Proofs.Bytes

/-! Images: class files by their parts.

An image says what a class file holds, part by part, and `bytes` writes it down in the order of the
format: numbers most significant byte first, lists behind their number, the contents of an attribute
behind their length. Names are indices into the constant pool, as in the file. A list or contents too
long for its number or length has no written form; `Fits` rules that out.

A method has at most one `Code` attribute, which is taken apart; of other attributes those with lines
and with nested classes are. -/
namespace ClassCatalog.ClassFile.Image

/-! ### Numbers and lengths -/

/-- Items behind their number. -/
def counted {α : Type} (write : α → List UInt8) (items : List α) : List UInt8 :=
  wordBytes (UInt16.ofNat items.length) ++ items.flatMap write

/-- Bytes behind their length. -/
def sized (contents : List UInt8) : List UInt8 := longBytes (UInt32.ofNat contents.length) ++ contents

/-- More than there can be of anything. -/
def countLimit : Nat := 65536

def lengthLimit : Nat := 4294967296

theorem counted_length {α : Type} (write : α → List UInt8) (items : List α) :
    (counted write items).length = 2 + (items.flatMap write).length := by
  rw [counted, List.length_append, wordBytes_length]

theorem sized_length (contents : List UInt8) : (sized contents).length = 4 + contents.length := by
  rw [sized, List.length_append, longBytes_length]

theorem toNat_count {n : Nat} (h : n < countLimit) : (UInt16.ofNat n).toNat = n :=
  UInt16.toNat_ofNat_of_lt' h

theorem toNat_length {n : Nat} (h : n < lengthLimit) : (UInt32.ofNat n).toNat = n :=
  UInt32.toNat_ofNat_of_lt' h

theorem flatMap_length_of_const {α : Type} {write : α → List UInt8} {k : Nat}
    (h : ∀ a, (write a).length = k) (items : List α) : (items.flatMap write).length = k * items.length := by
  induction items with
  | nil => rfl
  | cons a rest ih =>
    rw [List.flatMap_cons, List.length_append, h, ih, List.length_cons, Nat.mul_succ, Nat.add_comm]

/-! ### Attributes -/

structure InnerClass where
  inner : UInt16
  outer : UInt16
  name : UInt16
  access : UInt16
deriving DecidableEq, Repr

def InnerClass.bytes (c : InnerClass) : List UInt8 :=
  wordBytes c.inner ++ wordBytes c.outer ++ wordBytes c.name ++ wordBytes c.access

theorem InnerClass.bytes_length (c : InnerClass) : c.bytes.length = 8 := rfl

def lineBytes (e : LineEntry) : List UInt8 := wordBytes e.startPc ++ wordBytes e.line

theorem lineBytes_length (e : LineEntry) : (lineBytes e).length = 4 := rfl

inductive Contents where
  | raw (bytes : List UInt8)
  | lines (table : LineTable)
  | nested (classes : List InnerClass)
deriving DecidableEq, Repr

namespace Contents

def bytes : Contents → List UInt8
  | raw bs => bs
  | lines t => counted lineBytes t
  | nested cs => counted InnerClass.bytes cs

def Fits : Contents → Prop
  | raw bs => bs.length < lengthLimit
  | lines t => t.length < countLimit
  | nested cs => cs.length < countLimit

theorem Fits.length_lt {c : Contents} (h : c.Fits) : c.bytes.length < lengthLimit := by
  cases c with
  | raw bs => exact h
  | lines t =>
    have hlen : (t.flatMap lineBytes).length = 4 * t.length := flatMap_length_of_const lineBytes_length t
    have ht : t.length < 65536 := h
    show (counted lineBytes t).length < 4294967296
    rw [counted_length, hlen]
    omega
  | nested cs =>
    have hlen : (cs.flatMap InnerClass.bytes).length = 8 * cs.length :=
      flatMap_length_of_const InnerClass.bytes_length cs
    have hcs : cs.length < 65536 := h
    show (counted InnerClass.bytes cs).length < 4294967296
    rw [counted_length, hlen]
    omega

end Contents

structure Attribute where
  name : UInt16
  contents : Contents
deriving DecidableEq, Repr

namespace Attribute

def bytes (a : Attribute) : List UInt8 := wordBytes a.name ++ sized a.contents.bytes

def Fits (a : Attribute) : Prop := a.contents.Fits

theorem bytes_length (a : Attribute) : a.bytes.length = 6 + a.contents.bytes.length := by
  rw [bytes, List.length_append, wordBytes_length, sized_length]
  omega

theorem holds_bytes {b : Bytes} {p : Nat} {a : Attribute} : b.Holds p a.bytes ↔
    b.Holds p (wordBytes a.name) ∧ b.Holds (p + 2) (longBytes (UInt32.ofNat a.contents.bytes.length)) ∧
      b.Holds (p + 6) a.contents.bytes := by
  simp only [bytes, sized, Bytes.holds_append, wordBytes_length, longBytes_length, Nat.add_assoc,
    Nat.reduceAdd]

end Attribute

/-! ### Code -/

/-- An entry of an exception table. -/
structure Handler where
  start : UInt16
  stop : UInt16
  target : UInt16
  caught : UInt16
deriving DecidableEq, Repr

def Handler.bytes (h : Handler) : List UInt8 :=
  wordBytes h.start ++ wordBytes h.stop ++ wordBytes h.target ++ wordBytes h.caught

theorem Handler.bytes_length (h : Handler) : h.bytes.length = 8 := rfl

/-- A `Code` attribute. -/
structure Code where
  name : UInt16
  maxStack : UInt16
  maxLocals : UInt16
  bytecode : List UInt8
  handlers : List Handler
  attributes : List Attribute
deriving DecidableEq, Repr

namespace Code

/-- What stands in front of the attributes inside. -/
def front (c : Code) : List UInt8 :=
  wordBytes c.maxStack ++ wordBytes c.maxLocals ++ sized c.bytecode ++ counted Handler.bytes c.handlers

def contents (c : Code) : List UInt8 := c.front ++ counted Attribute.bytes c.attributes

def asAttribute (c : Code) : Attribute := ⟨c.name, .raw c.contents⟩

structure Fits (c : Code) : Prop where
  bytecode : c.bytecode.length < lengthLimit
  handlers : c.handlers.length < countLimit
  count : c.attributes.length < countLimit
  attributes : ∀ a ∈ c.attributes, a.Fits
  contents : c.contents.length < lengthLimit

theorem front_length (c : Code) : c.front.length = 10 + c.bytecode.length + 8 * c.handlers.length := by
  have h : (c.handlers.flatMap Handler.bytes).length = 8 * c.handlers.length :=
    flatMap_length_of_const Handler.bytes_length _
  simp only [front, List.length_append, wordBytes_length, sized_length, counted_length, h]
  omega

theorem contents_length (c : Code) :
    c.contents.length = c.front.length + 2 + (c.attributes.flatMap Attribute.bytes).length := by
  rw [contents, List.length_append, counted_length]
  omega

theorem asAttribute_length (c : Code) : c.asAttribute.bytes.length = 6 + c.contents.length :=
  c.asAttribute.bytes_length

/-- Where the parts of code stand whose contents start at `p`. -/
theorem holds_contents {b : Bytes} {p : Nat} {c : Code} : b.Holds p c.contents ↔
    b.Holds p (wordBytes c.maxStack) ∧ b.Holds (p + 2) (wordBytes c.maxLocals) ∧
      b.Holds (p + 4) (longBytes (UInt32.ofNat c.bytecode.length)) ∧ b.Holds (p + 8) c.bytecode ∧
      b.Holds (p + 8 + c.bytecode.length) (wordBytes (UInt16.ofNat c.handlers.length)) ∧
      b.Holds (p + 10 + c.bytecode.length) (c.handlers.flatMap Handler.bytes) ∧
      b.Holds (p + c.front.length) (wordBytes (UInt16.ofNat c.attributes.length)) ∧
      b.Holds (p + c.front.length + 2) (c.attributes.flatMap Attribute.bytes) := by
  simp only [contents, front, counted, sized, Bytes.holds_append, List.length_append, wordBytes_length,
    longBytes_length, and_assoc, ← Nat.add_assoc]
  simp only [Nat.add_right_comm _ c.bytecode.length 2]

end Code

/-! ### Members -/

def memberBytes (access name descriptor : UInt16) (attributes : List Attribute) : List UInt8 :=
  wordBytes access ++ wordBytes name ++ wordBytes descriptor ++ counted Attribute.bytes attributes

theorem memberBytes_length (access name descriptor : UInt16) (as : List Attribute) :
    (memberBytes access name descriptor as).length = 8 + (as.flatMap Attribute.bytes).length := by
  simp only [memberBytes, List.length_append, wordBytes_length, counted_length]
  omega

theorem holds_memberBytes {b : Bytes} {p : Nat} {access name descriptor : UInt16} {as : List Attribute} :
    b.Holds p (memberBytes access name descriptor as) ↔
      b.Holds p (wordBytes access) ∧ b.Holds (p + 2) (wordBytes name) ∧ b.Holds (p + 4) (wordBytes descriptor) ∧
        b.Holds (p + 6) (wordBytes (UInt16.ofNat as.length)) ∧ b.Holds (p + 8) (as.flatMap Attribute.bytes) := by
  simp only [memberBytes, counted, Bytes.holds_append, List.length_append, wordBytes_length, and_assoc,
    ← Nat.add_assoc]

structure Field where
  access : UInt16
  name : UInt16
  descriptor : UInt16
  attributes : List Attribute
deriving DecidableEq, Repr

namespace Field

def bytes (f : Field) : List UInt8 := memberBytes f.access f.name f.descriptor f.attributes

structure Fits (f : Field) : Prop where
  count : f.attributes.length < countLimit
  attributes : ∀ a ∈ f.attributes, a.Fits

end Field

structure Method where
  access : UInt16
  name : UInt16
  descriptor : UInt16
  before : List Attribute
  code : Option Code
  after : List Attribute
deriving DecidableEq, Repr

namespace Method

def attributes (m : Method) : List Attribute :=
  m.before ++ (m.code.map Code.asAttribute).toList ++ m.after

theorem attributes_of_code {m : Method} {c : Code} (h : m.code = some c) :
    m.attributes = m.before ++ c.asAttribute :: m.after := by
  simp [attributes, h]

def bytes (m : Method) : List UInt8 := memberBytes m.access m.name m.descriptor m.attributes

/-- What stands in front of the code. -/
def front (m : Method) : List UInt8 :=
  wordBytes m.access ++ wordBytes m.name ++ wordBytes m.descriptor ++
    wordBytes (UInt16.ofNat m.attributes.length) ++ m.before.flatMap Attribute.bytes

theorem front_length (m : Method) : m.front.length = 8 + (m.before.flatMap Attribute.bytes).length := by
  simp only [front, List.length_append, wordBytes_length]

theorem bytes_of_code {m : Method} {c : Code} (h : m.code = some c) :
    m.bytes = m.front ++ c.asAttribute.bytes ++ m.after.flatMap Attribute.bytes := by
  simp only [bytes, memberBytes, front, counted, attributes_of_code h, List.flatMap_append, List.flatMap_cons,
    List.append_assoc]

/-- Other code leaves what stands in front of it. -/
theorem front_with_code {m : Method} {c : Code} (h : m.code = some c) (c' : Code) :
    ({ m with code := some c' } : Method).front = m.front := by
  have hcount : ({ m with code := some c' } : Method).attributes.length = m.attributes.length := by
    rw [attributes_of_code h, attributes_of_code rfl, List.length_append, List.length_append, List.length_cons,
      List.length_cons]
  rw [front, front, hcount]

structure Fits (m : Method) : Prop where
  count : m.attributes.length < countLimit
  before : ∀ a ∈ m.before, a.Fits
  code : ∀ c ∈ m.code, c.Fits
  after : ∀ a ∈ m.after, a.Fits

end Method

end ClassCatalog.ClassFile.Image
