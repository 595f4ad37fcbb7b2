import ClassCatalog.ClassPath.Components
import ClassCatalog.ClassPath.Pool
import ClassCatalog.Name

/-! Looking for classes along a class path.

The elements of a class path are directories and archives, searched in order. What an
element holds is listed the first time a search reaches it and remembered. An archive
that cannot be read is reported once and counts as empty. -/
namespace ClassCatalog
open Files

namespace ClassPath

inductive ElementKind where
  | directory
  | archive
deriving DecidableEq, Repr

structure Element where
  kind : ElementKind
  location : Path
  /-- The classes in it, once they have been listed; no name stands twice. -/
  classes : Option (List String)
deriving DecidableEq, Repr

/-! ### Listing -/

/-- The class a file in a directory is for, given the names that lead to it. -/
def classOfFile (place : Place) : Option String :=
  match place.getLast? with
  | none => none
  | some name =>
    if Path.extensionOf name.toList = some "class".toList then
      let text := (String.intercalate "/" place).toList.map fun c => if c = '\\' then '/' else c
      some (String.ofList (Name.stripSuffix text))
    else none

/-- A file in place of the directory counts as a class without a name if it is called like one. -/
def directoryClasses (files : Tree) (root : Path) : List String :=
  match files.locate root with
  | .ok (place, .directory) => ((files.filesBelow place).filterMap classOfFile).eraseDups
  | .ok (_, .file _) => if root.extension = some "class".toList then [""] else []
  | .error _ => []

def classOfEntry (name : String) : Option String :=
  if (".class".toList).isSuffixOf name.toList then some (String.ofList (Name.stripSuffix name.toList))
  else none

def archiveClasses (a : Archive.Opened) : List String :=
  (a.entries.filterMap fun e => classOfEntry e.name).eraseDups

end ClassPath

structure ClassPath where
  elements : List ClassPath.Element
  pool : ClassPath.Pool

namespace ClassPath

def elementAt? (files : Tree) (location : Path) : Option Element :=
  if files.isDirectory location then some ⟨.directory, location, none⟩
  else if files.isFile location then some ⟨.archive, location, none⟩
  else none

/-- Locations where there is nothing are left out. -/
def new (files : Tree) (locations : List Path) (poolCapacity : Nat) : ClassPath :=
  ⟨locations.filterMap (elementAt? files), .new poolCapacity⟩

def locations (cp : ClassPath) : List Path := cp.elements.map Element.location

def openCount (cp : ClassPath) : Nat := cp.pool.size

variable [Archive.Format]

/-- The archive at a location, from the pool. -/
def archiveAt (files : Tree) (location : Path) : Action ClassPath (Except ClassError Archive.Opened) :=
  Action.ofFunction fun s =>
    let (r, pool) := s.state.pool.access files location
    (.ok r, { s with state := { s.state with pool } })

/-- What an element that has not been listed yet holds. -/
def listClasses (files : Tree) (e : Element) : Action ClassPath (List String) :=
  match e.kind with
  | .directory => return directoryClasses files e.location
  | .archive => do
    match ← archiveAt files e.location with
    | .ok a => return archiveClasses a
    | .error _ =>
      Action.report (.unreadableArchive e.location)
      return []

/-- The classes in the element at `i`, listed now if they have not been. -/
def classesOf (files : Tree) (i : Nat) (e : Element) : Action ClassPath (List String) := do
  match e.classes with
  | some classes => return classes
  | none =>
    let classes ← listClasses files e
    Action.update fun cp =>
      { cp with elements := cp.elements.set i { e with classes := some classes } }
    return classes

/-- The first of the elements, numbered from `i` on, that holds `name`. -/
def locateFrom (files : Tree) (name : String) : Nat → List Element → Action ClassPath (Option Path)
  | _, [] => return none
  | i, e :: rest => do
    let classes ← classesOf files i e
    if classes.contains name then return some e.location else locateFrom files name (i + 1) rest

/-- The location of the first element that holds the class `name`. -/
def locate (files : Tree) (name : String) : Action ClassPath (Option Path) := do
  locateFrom files name 0 (← Action.state).elements

def addNew (seen : List String) (names : List String) : List String :=
  names.foldl (fun seen n => if seen.contains n then seen else seen ++ [n]) seen

def listFrom (files : Tree) : Nat → List Element → List String → Action ClassPath (List String)
  | _, [], seen => return seen
  | i, e :: rest, seen => do
    let classes ← classesOf files i e
    listFrom files (i + 1) rest (addNew seen (classes.mergeSort fun a b => a ≤ b))

/-- All classes on the path: sorted within an element, each at the first that holds it. -/
def list (files : Tree) : Action ClassPath (List String) := do
  listFrom files 0 (← Action.state).elements []

/-- The bytes of the class `name` in a directory or an archive. -/
def read (files : Tree) (name : String) (location : Path) : Action ClassPath Bytes := do
  if files.isDirectory location then
    let path := location.join (Name.fileName name)
    Action.ofExcept ((files.read path).mapError (.read path))
  else
    match ← archiveAt files location with
    | .ok a => Action.ofExcept (Pool.readEntry location (Name.fileName name) a)
    | .error e => Action.fail e

/-- Closes all archives; what has been listed stays so. -/
def close (cp : ClassPath) : ClassPath := { cp with pool := cp.pool.close }

end ClassPath
end ClassCatalog
