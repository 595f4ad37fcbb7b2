import ClassCatalog.Cache.FileCache
import ClassCatalog.ClassFile.Parse
import ClassCatalog.ClassFile.MethodLayout
import ClassCatalog.ClassFile.Variable
import ClassCatalog.StackMap.Edit

/-! Loaded classes.

A loaded class is a record as one loader sees it, together with what instrumentation has
noted on it: status bits and a replacement body for each method, names added to the
constant pool, and links to other classes. Links go by number (`ClassId`), so that classes
may point to each other.

The number of instrumented methods is kept alongside the bits it counts; `setStatus` and
`clearStatus` move both. -/
namespace ClassCatalog
open ClassFile

abbrev ClassId := Nat

/-- Status bits of a method. Bits without a meaning are kept as well. -/
abbrev Status := UInt16

namespace Status

def instrumented : Status := 0x0008

def has (s flags : Status) : Bool := s &&& flags == flags

def set (s flags : Status) : Status := s ||| flags

def clear (s flags : Status) : Status := s &&& ~~~flags

end Status

structure MethodState where
  status : Status
  instrumentationId : Option Nat
  /-- The method that replaces the one in the record. -/
  replacement : Option Bytes
  /-- The layout of the current body, if it is known. -/
  layout : Option MethodLayout
deriving DecidableEq, Repr

def MethodState.fresh : MethodState := ⟨0, none, none, none⟩

structure LoadedClass where
  record : Record
  loader : LoaderId
  location : Location
  methods : Array MethodState
  attributeNames : AttributeNames
  /-- Where the entries reserved for each purpose start. -/
  poolBases : Table Nat Nat
  poolCount : Nat
  superClass : Option ClassId
  interfaces : List ClassId
  subclasses : List ClassId
  loaded : Bool
  instrumentedCount : Nat
  allRoots : Bool
  allMarkers : Bool
deriving DecidableEq, Repr

namespace LoadedClass

def new (record : Record) (loader : LoaderId) (location : Location) : LoadedClass where
  record := record
  loader := loader
  location := location
  methods := Array.replicate record.methods.size .fresh
  attributeNames := record.attributeNames
  poolBases := .empty
  poolCount := record.sections.poolCount.toNat
  superClass := none
  interfaces := []
  subclasses := []
  loaded := false
  instrumentedCount := 0
  allRoots := false
  allMarkers := false

def name (c : LoadedClass) : String := c.record.name

/-! ### Status -/

def status (c : LoadedClass) (i : Nat) : Status := (c.methods[i]?.map MethodState.status).getD 0

def hasStatus (c : LoadedClass) (i : Nat) (flags : Status) : Bool := (c.status i).has flags

/-- The count after the bits of a method have changed. -/
def recount (count : Nat) (before after : Status) : Nat :=
  match before.has .instrumented, after.has .instrumented with
  | false, true => count + 1
  | true, false => count - 1
  | _, _ => count

def changeStatus (c : LoadedClass) (i : Nat) (f : Status → Status) : LoadedClass :=
  match c.methods[i]? with
  | none => c
  | some m =>
    { c with
      methods := c.methods.setIfInBounds i { m with status := f m.status }
      instrumentedCount := recount c.instrumentedCount m.status (f m.status) }

def setStatus (c : LoadedClass) (i : Nat) (flags : Status) : LoadedClass :=
  c.changeStatus i fun s => s.set flags

def clearStatus (c : LoadedClass) (i : Nat) (flags : Status) : LoadedClass :=
  c.changeStatus i fun s => s.clear flags

def mark (c : LoadedClass) (i : Nat) : LoadedClass := c.setStatus i .instrumented

/-- A replacement body stays in place. -/
def unmark (c : LoadedClass) (i : Nat) : LoadedClass := c.clearStatus i .instrumented

def setInstrumentationId (c : LoadedClass) (i id : Nat) : LoadedClass :=
  { c with methods := c.methods.modify i fun m => { m with instrumentationId := some id } }

def instrumentationId? (c : LoadedClass) (i : Nat) : Option Nat :=
  c.methods[i]?.bind MethodState.instrumentationId

/-! ### Constant pool -/

/-- The greatest number of entries a pool can have. -/
def poolMax : Nat := 65535

/-- Reserves entries for a purpose and answers where they start; a purpose has them once. -/
def reserve (c : LoadedClass) (purpose count : Nat) : Option Nat × LoadedClass :=
  if c.poolBases.contains purpose then (none, c)
  else
    (some c.poolCount, { c with
      poolBases := c.poolBases.insert purpose c.poolCount
      poolCount := min (c.poolCount + count) poolMax })

def poolBase? (c : LoadedClass) (purpose : Nat) : Option Nat := c.poolBases.get? purpose

/-! ### Links -/

def addOnce (ids : List ClassId) (id : ClassId) : List ClassId :=
  if ids.contains id then ids else ids ++ [id]

theorem addOnce_nodup {ids : List ClassId} (h : ids.Nodup) (id : ClassId) : (addOnce ids id).Nodup := by
  unfold addOnce
  split
  · exact h
  · rename_i hm
    rw [List.nodup_append]
    refine ⟨h, by simp, fun a ha b hb e => ?_⟩
    simp only [List.mem_singleton] at hb
    subst hb
    subst e
    exact hm (List.contains_iff_mem.mpr ha)

def addInterface (c : LoadedClass) (id : ClassId) : LoadedClass :=
  { c with interfaces := addOnce c.interfaces id }

def addSubclass (c : LoadedClass) (id : ClassId) : LoadedClass :=
  { c with subclasses := addOnce c.subclasses id }

/-- Takes over what was noted before the class was loaded. -/
def adopt (c : LoadedClass) (roots markers : Bool) (subclasses : List ClassId) : LoadedClass :=
  { c with
    allRoots := c.allRoots || roots
    allMarkers := c.allMarkers || markers
    subclasses := subclasses.foldl addOnce c.subclasses }

end LoadedClass
end ClassCatalog
