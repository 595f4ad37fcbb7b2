import ClassCatalog.Catalog.State

/-! Looking up classes.

A loader sees the entries of its own and of the loaders above it (`sees`). When it sees
none of the entries of a name, a placeholder below it is narrowed, that is, moved to it;
failing that, the client may know which loader defines the class for it.

`lookup` answers real classes. It loads a class that is not registered yet, from the
bytes supplied at the loader or above it, then from the class path, then at the defining
loader. A class that is loaded where there was a placeholder takes its place and what
was noted on it (`promote`). -/
namespace ClassCatalog.Catalog
open Files ClassFile

/-! ### Entries that fit -/

/-- Whether `loader` finds an entry by delegation. -/
def sees (c : Catalog) (loader : LoaderId) (e : Entry) : Bool :=
  match c.loaderOf e with
  | some l => l = loader || c.index.loaders.isAncestor l loader
  | none => false

/-- Whether an entry is a placeholder at a loader that delegates to `loader`. -/
def isBelow (c : Catalog) (loader : LoaderId) (e : Entry) : Bool :=
  match e with
  | .placeholder id =>
    match c.population.placeholder? id with
    | some p => c.index.loaders.isAncestor loader p.loader
    | none => false
  | _ => false

/-- Moves a placeholder to `loader`. -/
def narrow (c : Catalog) (loader : LoaderId) (e : Entry) : Catalog :=
  match e with
  | .placeholder id => c.modifyPlaceholder id fun p => { p with loader := loader }
  | _ => c

def remember (c : Catalog) (key : ClassKey) (l : LoaderId) : Catalog :=
  c.modifyIndex fun i => { i with defining := i.defining.insert key l }

/-- The loader that defines a class, -1 if unknown. The client is asked once, unless it is gone. -/
def definingLoader (o : Outside) (name : String) (loader : LoaderId) : Action Catalog LoaderId := do
  match (← Action.state).index.defining.get? (name, loader) with
  | some l => return l
  | none =>
    let l ← match o.client with
      | none => pure Loader.none
      | some client => do
        match ← Action.ask (.askedDefining name loader) fun told =>
            client.definingLoader told name loader with
        | .ok l => pure l
        | .error .targetTerminated => Action.fail .targetTerminated
        | .error _ => pure Loader.none
    Action.update fun c => c.remember (name, loader) l
    return l

/-- The entry of `name` that fits `loader`, if there is one. -/
def findFitting (o : Outside) (name : String) (loader : LoaderId) (placeholders : Bool) :
    Action Catalog (Option Entry) := do
  let c ← Action.state
  let candidates := (c.group name).filter fun e => placeholders || !e.isPlaceholder
  if candidates.isEmpty then return none
  else
    match candidates.find? (c.sees loader) with
    | some e => return some e
    | none =>
      match candidates.find? (c.isBelow loader) with
      | some e =>
        Action.put (c.narrow loader e)
        return some e
      | none =>
        let l ← definingLoader o name loader
        if l = Loader.none then return none
        else return candidates.find? fun e => c.loaderOf e = some l

/-! ### Loading -/

/-- The class from bytes supplied at `loader` or above it. -/
def loadSupplied (o : Outside) (name : String) (loader : LoaderId) :
    Action Catalog (Option LoadedClass) := do
  let c ← Action.state
  match c.index.files.supplied.holder? name loader c.index.loaders with
  | none => return none
  | some holder =>
    match ← onSources (o.classBytes o.client name (.supplied holder)) with
    | none => return none
    | some bytes =>
      let r ← Action.ofExcept (o.parseNamed name bytes)
      return some (.new r loader (.supplied holder))

/-- The class from the class path; it belongs to the root. -/
def loadFromPath (o : Outside) (name : String) : Action Catalog (Option LoadedClass) := do
  match ← onClassPath none (o.locate name) with
  | none => return none
  | some path =>
    match ← onSources (o.classBytes none name (.path path)) with
    | none => return none
    | some bytes =>
      let r ← Action.ofExcept (o.parseNamed name bytes)
      return some (.new r Loader.root (.path path))

def loadAt (o : Outside) (name : String) (loader : LoaderId) :
    Action Catalog (Option LoadedClass) := do
  match ← loadSupplied o name loader with
  | some k => return some k
  | none => if loader = Loader.root then loadFromPath o name else return none

/-- The class at the first of the loaders that has it. -/
def loadFirst (o : Outside) (name : String) : List LoaderId → Action Catalog (Option LoadedClass)
  | [] => return none
  | l :: rest => do
    match ← loadAt o name l with
    | some k => return some k
    | none => loadFirst o name rest

/-- Notes that a class is nowhere, and says so the first time. -/
def reportMissing (name : String) (loader : LoaderId) : Action Catalog Unit := do
  let c ← Action.state
  if c.index.missing.contains name then return ()
  else
    Action.put (c.modifyIndex fun i => { i with missing := i.missing ++ [name] })
    Action.report (.missing name loader)

def load (o : Outside) (name : String) (loader : LoaderId) :
    Action Catalog (Option LoadedClass) := do
  let ancestry := (← Action.state).index.loaders.ancestry loader
  match ← loadFirst o name ancestry with
  | some k => return some k
  | none =>
    let l ← definingLoader o name loader
    let others := if l = Loader.none || ancestry.contains l then [] else [l]
    match ← loadFirst o name others with
    | some k => return some k
    | none =>
      reportMissing name loader
      return none

/-! ### Registering -/

/-- The class registered under the name and at the loader of `k`. -/
def registered? (c : Catalog) (name : String) (k : LoadedClass) : Option ClassId :=
  (c.group name).findSome? fun e =>
    match e.class? with
    | some id => if c.loaderOf e = some k.loader then some id else none
    | none => none

/-- Hands over to a class what was noted on a placeholder, which keeps no subclasses. -/
def transfer (c : Catalog) (placeholder : Nat) (id : ClassId) : Catalog :=
  match c.population.placeholder? placeholder with
  | none => c
  | some p =>
    (c.modifyPlaceholder placeholder fun p => { p with subclasses := [] }).modifyClass id fun k =>
      k.adopt p.allRoots p.allMarkers p.subclasses

/-- Whether a class still has to be linked to its super class, which is called `name`. -/
def awaits (k : LoadedClass) (name : String) : Bool :=
  k.superClass.isNone && k.record.superName == some name

/-- Links the subclasses of a class to it that have no super class yet. -/
def linkSubclasses (c : Catalog) (id : ClassId) : Catalog :=
  match c.population.class? id with
  | none => c
  | some k =>
    k.subclasses.foldl (fun c sub => c.modifyClass sub fun s =>
      if awaits s k.name then { s with superClass := some id } else s) c

def replaceEntry (old new : Entry) (entries : List Entry) : List Entry :=
  entries.map fun e => if e = old then new else e

/-- Puts a class in the place of a placeholder; one that was registered before only loses it. -/
def promote (c : Catalog) (name : String) (placeholder : Nat) (id : ClassId) (known : Bool) :
    Catalog :=
  let c := c.transfer placeholder id
  let old := Entry.placeholder placeholder
  let c := if known then c.setGroup name ((c.group name).filter (· ≠ old))
    else c.setGroup name (replaceEntry old (.loaded id) (c.group name))
  c.linkSubclasses id

/-- Registers a loaded class, in the place of the placeholder that fitted if there was one. A
class of that name at that loader is used instead if there is one. -/
def enroll (c : Catalog) (name : String) (placeholder : Option Nat) (k : LoadedClass) :
    ClassId × Catalog :=
  let known := c.registered? name k
  let (id, c) := match known with
    | some id => (id, c)
    | none => c.newClass k
  match placeholder with
  | some p => (id, c.promote name p id known.isSome)
  | none => (id, c.register name (.loaded id))

/-- Notes bytes that are of no use, so that they are not tried again. -/
def noteUnusable (name : String) (loader : LoaderId) (e : ClassError) : Action Catalog Unit := do
  if e.isFormat then
    Action.update fun c =>
      c.modifyIndex fun i => { i with unusable := i.unusable ++ [(name, loader)] }
    Action.report (.unusable name loader)

/-- Loads and registers a class for which there is no more than a placeholder. -/
def loadAndEnroll (o : Outside) (name : String) (loader : LoaderId) (placeholder : Option Nat) :
    Action Catalog (Option ClassId) := do
  if (← Action.state).index.unusable.contains (name, loader) then return none
  else
    match ← Action.attempt (load o name loader) with
    | .error e =>
      noteUnusable name loader e
      Action.fail e
    | .ok none => return none
    | .ok (some k) =>
      let (id, c) := (← Action.state).enroll name placeholder k
      Action.put c
      return some id

def lookupCanonical (o : Outside) (name : String) (loader : LoaderId) :
    Action Catalog (Option ClassId) := do
  match ← findFitting o name loader true with
  | some (.loaded id) => return some id
  | some (.special _) => return none
  | some (.placeholder p) => loadAndEnroll o name loader (some p)
  | none => loadAndEnroll o name loader none

/-! ### Looking up -/

/-- The class `name` as `loader` sees it, loaded if it has to be. -/
def lookup (o : Outside) (name : String) (loader : LoaderId) : Action Catalog (Option ClassId) :=
  lookupCanonical o (Name.canonical name) (Loader.normalize loader)

/-- An entry that fits, or a new placeholder. Nothing is loaded. -/
def lookupOrPlaceholder (o : Outside) (name : String) (loader : LoaderId) : Action Catalog Entry := do
  let name := Name.canonical name
  let loader := Loader.normalize loader
  match ← findFitting o name loader true with
  | some e => return e
  | none =>
    let (e, c) := (← Action.state).newPlaceholder name loader
    Action.put c
    return e

/-- An entry that is registered and fits. -/
def lookupRegistered (o : Outside) (name : String) (loader : LoaderId) (placeholders : Bool) :
    Action Catalog (Option Entry) :=
  findFitting o (Name.canonical name) (Loader.normalize loader) placeholders

/-- The special class `name`, made on the first request. -/
def special (c : Catalog) (name : String) : Entry × Catalog :=
  let name := Name.canonical name
  match (c.group name).find? Entry.isSpecial with
  | some e => (e, c)
  | none => c.newSpecial name

/-- The placeholder for `name` at exactly this loader, made if it is not there. -/
def addPlaceholder (c : Catalog) (name : String) (loader : LoaderId) : Entry × Catalog :=
  let name := Name.canonical name
  let loader := Loader.normalize loader
  match (c.group name).find? fun e => e.isPlaceholder && c.loaderOf e == some loader with
  | some e => (e, c)
  | none => c.newPlaceholder name loader

def versions (c : Catalog) (name : String) : List Entry := c.group (Name.canonical name)

def defining (o : Outside) (name : String) (loader : LoaderId) : Action Catalog LoaderId :=
  definingLoader o (Name.canonical name) loader

end ClassCatalog.Catalog
