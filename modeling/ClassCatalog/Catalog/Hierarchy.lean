import ClassCatalog.Catalog.Lookup

/-! Linking classes to their super classes and interfaces.

A super class that cannot be loaded yet gets a placeholder that remembers the subclass;
the link is made when the super class turns up. -/
namespace ClassCatalog.Catalog

def link (c : Catalog) (sub sup : ClassId) : Catalog :=
  (c.modifyClass sup fun k => k.addSubclass sub).modifyClass sub fun k =>
    { k with superClass := some sup }

def resolveSuper (o : Outside) (id : ClassId) (loader : LoaderId) (sup : String) :
    Action Catalog Unit := do
  match ← lookup o sup loader with
  | some found => Action.update fun c => c.link id found
  | none =>
    match ← lookupOrPlaceholder o sup loader with
    | .placeholder p => Action.update fun c => c.modifyPlaceholder p fun p => p.addSubclass id
    | _ => return ()

def resolveInterfaces (o : Outside) (id : ClassId) (loader : LoaderId) :
    List String → Action Catalog Unit
  | [] => return ()
  | name :: rest => do
    match ← lookup o name loader with
    | some found => Action.update fun c => c.modifyClass id fun k => k.addInterface found
    | none => pure ()
    resolveInterfaces o id loader rest

/-- Links a class as far as its super class and interfaces can be found. -/
def resolveHierarchy (o : Outside) (id : ClassId) : Action Catalog Unit := do
  match (← Action.state).population.class? id with
  | none => return ()
  | some k =>
    match k.record.superName with
    | some sup => resolveSuper o id k.loader sup
    | none => pure ()
    resolveInterfaces o id k.loader k.record.interfaces

end ClassCatalog.Catalog
