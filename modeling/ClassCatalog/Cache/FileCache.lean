import ClassCatalog.Cache.ByteCache
import ClassCatalog.Cache.Supplied
import ClassCatalog.ClassPath.Search

/-! Class bytes by where they come from: the running program or the class path. What was
read along the class path is kept in a byte cache, under the name of the class and its
location. -/
namespace ClassCatalog
open Files

/-- Where a class was found. -/
inductive Location where
  /-- Supplied by the running program, held at this loader. -/
  | supplied (loader : LoaderId)
  | path (path : Path)
deriving DecidableEq, Repr

namespace Location

def isSupplied : Location → Bool
  | supplied _ => true
  | path _ => false

def path? : Location → Option Path
  | supplied _ => none
  | path p => some p

def text : Location → String
  | supplied l => "<VM_SUPPLIED>" ++ toString l
  | path p => p.text

end Location

namespace Cache

/-- The key of a class in the byte cache. -/
def cacheKey (name : String) (location : Location) : String := name ++ "#" ++ location.text

structure FileCache where
  bytes : ByteCache
  supplied : Supplied

namespace FileCache

def new (capacity batchLimit : Nat) : FileCache :=
  ⟨.new polynomialHash capacity, .new batchLimit⟩

def clear (c : FileCache) : FileCache := ⟨c.bytes.clear, c.supplied.clear⟩

/-- A class path that may be missing, and the caches in front of it. -/
structure Sources where
  files : FileCache
  classPath : Option ClassPath

variable [Archive.Format]

/-- Reads a class along the class path and keeps its bytes. -/
def readAndKeep (files : Tree) (name : String) (path : Path) (cp : ClassPath) :
    Action Sources Bytes := do
  let bytes ← Action.within (fun _ => cp) (fun s cp => { s with classPath := some cp })
    (ClassPath.read files name path)
  Action.update fun s =>
    { s with files := { s.files with bytes := s.files.bytes.put (cacheKey name (.path path)) bytes } }
  return bytes

/-- The bytes of a class at a location. Without a class path only the cache can have them. -/
def classBytes [Supplied.Arrangement] (files : Tree) (client : Option Client) (name : String) (location : Location) :
    Action Sources (Option Bytes) :=
  match location with
  | .supplied loader =>
    Action.within (fun s => s.files.supplied)
      (fun s supplied => { s with files := { s.files with supplied } })
      (Supplied.serve (name, loader) client)
  | .path path => do
    let s ← Action.state
    let (hit, kept) := s.files.bytes.get (cacheKey name location)
    Action.put { s with files := { s.files with bytes := kept } }
    match hit, s.classPath with
    | some bytes, _ => return some bytes
    | none, some cp => return some (← readAndKeep files name path cp)
    | none, none => return none

end FileCache
end Cache
end ClassCatalog
