import ClassCatalog.Catalog.Hierarchy
import ClassCatalog.Catalog.Region

/-! Requests to a catalog.

Whatever changes a catalog, or asks something of it that may change it, is a `Request`, so
that a session is a list of them: `perform` answers one, `run` all. The files and the
client may change between two requests. A request that fails leaves its error as its
answer, and the session goes on. -/
namespace ClassCatalog.Catalog

inductive Request where
  | initClassPath
  | initLoaders (table : List LoaderId)
  | addLoader (child parent : LoaderId)
  | lookup (name : String) (loader : LoaderId)
  | lookupOrPlaceholder (name : String) (loader : LoaderId)
  | lookupRegistered (name : String) (loader : LoaderId) (placeholders : Bool)
  | special (name : String)
  | addPlaceholder (name : String) (loader : LoaderId)
  | addSupplied (name : String) (loader : LoaderId) (bytes : Bytes)
  | announce (names : List String) (loaders : List LoaderId)
  | defining (name : String) (loader : LoaderId)
  | classPathNames
  | resolveHierarchy (id : ClassId)
  | regionForLines (id : ClassId) (start stop : Nat)
  | wholeMethod (id : ClassId) (name signature : String)
  | setRoots (placeholder : Nat)
  | setMarkers (placeholder : Nat)
  | addSubclass (placeholder : Nat) (id : ClassId)
  | clear
  | close
deriving DecidableEq, Repr

inductive Answer where
  | done
  | entry (e : Option Entry)
  | loader (l : LoaderId)
  | names (l : List String)
  | region (r : Option Region)
deriving DecidableEq, Repr

def change (f : Catalog → Catalog) : Action Catalog Answer := do
  Action.update f
  return .done

/-- A change that answers an entry. -/
def provide (f : Catalog → Entry × Catalog) : Action Catalog Answer := do
  let (e, c) := f (← Action.state)
  Action.put c
  return .entry (some e)

/-- Notes something on a placeholder and answers it. -/
def note (placeholder : Nat) (f : Placeholder → Placeholder) : Action Catalog Answer :=
  provide fun c => (.placeholder placeholder, c.modifyPlaceholder placeholder f)

def perform (o : Outside) : Request → Action Catalog Answer
  | .initClassPath => change (initClassPath o.files)
  | .initLoaders table => change fun c => c.initLoaders table
  | .addLoader child parent => change fun c => c.addLoader child parent
  | .lookup name loader => do return .entry ((← lookup o name loader).map .loaded)
  | .lookupOrPlaceholder name loader => do return .entry (some (← lookupOrPlaceholder o name loader))
  | .lookupRegistered name loader placeholders => do
    return .entry (← lookupRegistered o name loader placeholders)
  | .special name => provide fun c => c.special name
  | .addPlaceholder name loader => provide fun c => c.addPlaceholder name loader
  | .addSupplied name loader bytes => change fun c => c.addSupplied name loader bytes
  | .announce names loaders => change fun c => c.announce names loaders
  | .defining name loader => do return .loader (← defining o name loader)
  | .classPathNames => do return .names (← classPathNames o)
  | .resolveHierarchy id => do
    resolveHierarchy o id
    return .done
  | .regionForLines id start stop => do return .region (← regionForLines o id start stop)
  | .wholeMethod id name signature => do return .region (← wholeMethod id name signature)
  | .setRoots p => note p fun p => { p with allRoots := true }
  | .setMarkers p => note p fun p => { p with allMarkers := true }
  | .addSubclass p id => note p fun p => p.addSubclass id
  | .clear => change clear
  | .close => change close

/-- The answers to requests made one after the other, each with what surrounds the catalog then. -/
def run : List (Outside × Request) → Action Catalog (List (Except ClassError Answer))
  | [] => return []
  | (o, r) :: rest => do
    let a ← Action.attempt (perform o r)
    return a :: (← run rest)

end ClassCatalog.Catalog
