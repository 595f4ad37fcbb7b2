import ClassCatalog.ClassPath.Components
import ClassCatalog.Files.Tree
import ClassCatalog.Json

/-! Session settings.

Settings are read from JSON: an object whose missing members keep their defaults and
whose unknown members are ignored, or an array of the members in order, which may end
early. -/
namespace ClassCatalog
open Files

/-- The class paths of the running program. -/
structure ClassPaths where
  user : String
  extension : String
  boot : String
deriving DecidableEq, Repr

structure Config where
  byteCacheCapacity : Nat
  jarPoolCapacity : Nat
  preloadBatchLimit : Nat
  workingDir : Option Path
  classPaths : ClassPaths
deriving DecidableEq, Repr

namespace ClassPaths

def default : ClassPaths := ⟨"", "", ""⟩

/-- The archives in a directory, by name. -/
def archivesIn (files : Tree) (dir : Path) : List Path :=
  match files.directory? dir with
  | none => []
  | some place =>
    (((files.children place).mergeSort fun a b => a ≤ b).map dir.join).filter Path.isArchive

/-- The boot path, then all archives in the extension directories, then the user's path. -/
def assemble (files : Tree) (c : ClassPaths) (workingDir : Path) : List Path :=
  ClassPath.components c.boot workingDir ++
    (ClassPath.components c.extension workingDir).flatMap (archivesIn files) ++
    ClassPath.components c.user workingDir

end ClassPaths

namespace Config

def default : Config := ⟨877, 16, 100, none, .default⟩

/-- No capacity is too small to work with. -/
def sanitized (c : Config) : Config :=
  { c with
    byteCacheCapacity := max c.byteCacheCapacity 4
    jarPoolCapacity := max c.jarPoolCapacity 1
    preloadBatchLimit := max c.preloadBatchLimit 1 }

def elements (files : Tree) (c : Config) (workingDir : Path) : List Path :=
  c.classPaths.assemble files workingDir

/-! ### Reading -/

def capacityMax : Nat := 18446744073709551615

def natural? : Json → Option Nat
  | .number (some n) => if n ≤ capacityMax then some n else none
  | _ => none

def text? : Json → Option String
  | .string s => s
  | _ => none

/-- A member of a structure: its name and how a value for it is put in. -/
abbrev Field (α : Type) := String × (α → Json → Option α)

/-- Puts in the items of an array, one for each field. -/
def fromItems {α : Type} : List (Field α) → α → List Json → Option α
  | _, a, [] => some a
  | [], _, _ :: _ => none
  | f :: fields, a, j :: items => (f.2 a j).bind fun a => fromItems fields a items

/-- Puts in the members of an object. A field may come once; `fields` are those still to come
and `all` are all of them. -/
def fromMembers {α : Type} (all : List (Field α)) :
    List (Field α) → α → List (Option String × Json) → Option α
  | _, a, [] => some a
  | _, _, (none, _) :: _ => none
  | fields, a, (some key, j) :: members =>
    match fields.find? fun f => f.1 = key with
    | some f => (f.2 a j).bind fun a => fromMembers all (fields.filter fun g => g.1 ≠ key) a members
    | none => if all.any fun f => f.1 = key then none else fromMembers all fields a members

def fromJson {α : Type} (fields : List (Field α)) (a : α) : Json → Option α
  | .array items => fromItems fields a items
  | .object members => fromMembers fields fields a members
  | _ => none

def pathFields : List (Field ClassPaths) :=
  [("user", fun c j => (text? j).map fun s => { c with user := s }),
   ("extension", fun c j => (text? j).map fun s => { c with extension := s }),
   ("boot", fun c j => (text? j).map fun s => { c with boot := s })]

def workingDir? : Json → Option (Option Path)
  | .null => some none
  | j => (text? j).map fun s => some ⟨s⟩

def fields : List (Field Config) :=
  [("byte_cache_capacity", fun c j => (natural? j).map fun n => { c with byteCacheCapacity := n }),
   ("jar_pool_capacity", fun c j => (natural? j).map fun n => { c with jarPoolCapacity := n }),
   ("preload_batch_limit", fun c j => (natural? j).map fun n => { c with preloadBatchLimit := n }),
   ("working_dir", fun c j => (workingDir? j).map fun d => { c with workingDir := d }),
   ("class_paths", fun c j =>
      (fromJson pathFields .default j).map fun p => { c with classPaths := p })]

def ofText (text : String) : Except ClassError Config :=
  match (Json.parse text).bind (fromJson fields default) with
  | some c => .ok c.sanitized
  | none => .error .config

end Config
end ClassCatalog
