import ClassCatalog.Archive.Content
import ClassCatalog.Config
import ClassCatalog.Loaded.Population
import ClassCatalog.Text.ModifiedUtf8

/-! The catalog of a session.

Entries are registered by name. The entries of one name form a group, in the order of
their registration, for classes of one name may be loaded by several loaders. Besides the
groups the catalog remembers the loaders, the sources of bytes, and what it has asked and
missed before. -/
namespace ClassCatalog
open Files ClassFile

/-- What surrounds the catalog during an operation: files and a client, how archives and strings are written, and how
the bytes lie that the program supplies. -/
structure Outside where
  files : Tree
  client : Option Client
  [format : Archive.Format]
  [encoding : Text.Encoding]
  [arrangement : Cache.Supplied.Arrangement]

namespace Outside

/-- Looks for a class along the class path. -/
abbrev locate (o : Outside) (name : String) : Action ClassPath (Option Path) :=
  letI := o.format
  ClassPath.locate o.files name

/-- All classes on the class path. -/
abbrev list (o : Outside) : Action ClassPath (List String) :=
  letI := o.format
  ClassPath.list o.files

/-- The bytes of a class at a location. -/
abbrev classBytes (o : Outside) (client : Option Client) (name : String) (location : Location) :
    Action Cache.FileCache.Sources (Option Bytes) :=
  letI := o.format
  letI := o.arrangement
  Cache.FileCache.classBytes o.files client name location

/-- The record in `bytes`, which has to be that of `name`. -/
def parseNamed (o : Outside) (name : String) (bytes : Bytes) : Except ClassError Record :=
  letI := o.encoding
  match Record.parse bytes with
  | .error e => .error e
  | .ok r => if r.name = name then .ok r else .error (.format name 0 (.otherClass r.name))

end Outside

structure Index where
  groups : Table String (List Entry)
  loaders : Loader.Graph
  files : Cache.FileCache
  classPath : Option ClassPath
  /-- Names that have been reported as missing. -/
  missing : List String
  /-- The loaders that define a class, as far as the client has been asked. -/
  defining : Table ClassKey LoaderId
  /-- Classes whose bytes are known not to be usable. -/
  unusable : List ClassKey

def Index.new (c : Config) : Index where
  groups := .empty
  loaders := .new
  files := .new c.byteCacheCapacity c.preloadBatchLimit
  classPath := none
  missing := []
  defining := .empty
  unusable := []

structure Catalog where
  config : Config
  population : Population
  index : Index

namespace Catalog

def new (c : Config) : Catalog := ⟨c, .empty, .new c⟩

/-! ### Groups -/

def group (c : Catalog) (name : String) : List Entry := (c.index.groups.get? name).getD []

def setGroup (c : Catalog) (name : String) (entries : List Entry) : Catalog :=
  { c with index := { c.index with groups := c.index.groups.insert name entries } }

/-- Registers an entry behind the others of its name. -/
def register (c : Catalog) (name : String) (e : Entry) : Catalog :=
  if (c.group name).contains e then c else c.setGroup name (c.group name ++ [e])

def entries (c : Catalog) : List Entry := c.index.groups.values.flatten

def classCount (c : Catalog) : Nat := c.entries.length

def loaderOf (c : Catalog) (e : Entry) : Option LoaderId := c.population.loaderOf e

/-! ### Changing parts -/

def modifyIndex (c : Catalog) (f : Index → Index) : Catalog := { c with index := f c.index }

def modifyPopulation (c : Catalog) (f : Population → Population) : Catalog :=
  { c with population := f c.population }

def modifyClass (c : Catalog) (id : ClassId) (f : LoadedClass → LoadedClass) : Catalog :=
  c.modifyPopulation fun p => p.modifyClass id f

def modifyPlaceholder (c : Catalog) (id : Nat) (f : Placeholder → Placeholder) : Catalog :=
  c.modifyPopulation fun p => p.modifyPlaceholder id f

/-- A new class and the catalog with it; it is not registered yet. -/
def newClass (c : Catalog) (k : LoadedClass) : ClassId × Catalog :=
  (c.population.classes.size,
    c.modifyPopulation fun p => { p with classes := p.classes.push k })

def newPlaceholder (c : Catalog) (name : String) (loader : LoaderId) : Entry × Catalog :=
  let e := Entry.placeholder c.population.placeholders.size
  (e, (c.modifyPopulation fun p =>
    { p with placeholders := p.placeholders.push (.new name loader) }).register name e)

def newSpecial (c : Catalog) (name : String) : Entry × Catalog :=
  let e := Entry.special c.population.specials.size
  (e, (c.modifyPopulation fun p => { p with specials := p.specials.push name }).register name e)

def setSources (c : Catalog) (s : Cache.FileCache.Sources) : Catalog :=
  c.modifyIndex fun i => { i with files := s.files, classPath := s.classPath }

/-- An action on the caches and the class path. -/
def onSources {α : Type} (a : Action Cache.FileCache.Sources α) : Action Catalog α :=
  Action.within (fun c => ⟨c.index.files, c.index.classPath⟩) setSources a

/-- An action on the class path, if there is one. -/
def onClassPath {α : Type} (absent : α) (a : Action ClassPath α) : Action Catalog α := do
  match (← Action.state).index.classPath with
  | none => return absent
  | some cp =>
    Action.within (fun _ => cp)
      (fun c cp => c.modifyIndex fun i => { i with classPath := some cp }) a

/-- An action on a class as it is now. -/
def onClass {α : Type} (absent : α) (id : ClassId) (a : Action LoadedClass α) : Action Catalog α := do
  match (← Action.state).population.class? id with
  | none => return absent
  | some k => Action.within (fun _ => k) (fun c k => c.modifyClass id fun _ => k) a

/-! ### Loaders and bytes -/

def initLoaders (c : Catalog) (table : List LoaderId) : Catalog :=
  c.modifyIndex fun i => { i with loaders := .ofTable table }

def addLoader (c : Catalog) (child parent : LoaderId) : Catalog :=
  c.modifyIndex fun i => { i with loaders := i.loaders.add child parent }

def parent? (c : Catalog) (l : LoaderId) : Option LoaderId := c.index.loaders.parent? l

def modifySupplied (c : Catalog) (f : Cache.Supplied → Cache.Supplied) : Catalog :=
  c.modifyIndex fun i => { i with files := { i.files with supplied := f i.files.supplied } }

def addSupplied (c : Catalog) (name : String) (loader : LoaderId) (bytes : Bytes) : Catalog :=
  c.modifySupplied fun s => s.add (Name.canonical name, loader) bytes

def announce (c : Catalog) (names : List String) (loaders : List LoaderId) : Catalog :=
  c.modifySupplied fun s => s.announce (names.map Name.canonical) loaders

/-! ### Beginning and end -/

/-- Sets up the class path. What was missed before may be found on it. -/
def initClassPath (files : Tree) (c : Catalog) : Catalog :=
  let elements := c.config.elements files (c.config.workingDir.getD ⟨""⟩)
  c.modifyIndex fun i =>
    { i with
      classPath := some (.new files elements c.config.jarPoolCapacity)
      files := { i.files with bytes := i.files.bytes.clear }
      missing := []
      unusable := [] }

/-- Forgets all entries and bytes; loaders and class path stay. -/
def clear (c : Catalog) : Catalog :=
  c.modifyIndex fun i =>
    { i with
      groups := .empty, files := i.files.clear, missing := [], defining := .empty, unusable := [] }

/-- Ends the session. -/
def close (c : Catalog) : Catalog :=
  c.clear.modifyIndex fun i => { i with classPath := none, loaders := .new }

/-- All classes on the class path by name. -/
def classPathNames (o : Outside) : Action Catalog (List String) :=
  onClassPath [] o.list

end Catalog
end ClassCatalog
