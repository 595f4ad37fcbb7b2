import ClassCatalog.Action
import ClassCatalog.Table

/-! Bytes supplied by the running program.

An entry without bytes is pending: the program has announced the class, and its bytes
are still to be asked for. Asking for one pending entry asks for others along with it, as
many as the batch limit allows. What comes back empty is forgotten.

Which others are asked for depends on how the entries lie. They are kept by hash, so that
how they lie is left open: it is an `Arrangement`, and may be another one at every fetch. -/
namespace ClassCatalog.Cache

structure Supplied where
  entries : Table ClassKey Bytes
  batchLimit : Nat
deriving DecidableEq, Repr

namespace Supplied

/-- A batch holds one entry at least. -/
def new (batchLimit : Nat) : Supplied := ⟨.empty, max batchLimit 1⟩

def size (s : Supplied) : Nat := s.entries.size

def pending (s : Supplied) : List ClassKey :=
  (s.entries.entries.filter fun e => e.2.isEmpty).map Prod.fst

/-- Bytes replace what was there; an announcement does not. -/
def add (s : Supplied) (key : ClassKey) (bytes : Bytes) : Supplied :=
  if bytes.isEmpty && s.entries.contains key then s
  else { s with entries := s.entries.insert key bytes }

/-- Announces names with their loaders, as far as both lists go. -/
def announce (s : Supplied) (names : List String) (loaders : List LoaderId) : Supplied :=
  (names.zip loaders).foldl (fun s key => s.add key #[]) s

/-- The loader that holds an entry for `name`: `loader` or the nearest above it. -/
def holder? (s : Supplied) (name : String) (loader : LoaderId) (g : Loader.Graph) :
    Option LoaderId :=
  (g.ancestry loader).find? fun l => s.entries.contains (name, l)

/-! ### Fetching -/

/-- What is asked for together with `first`. -/
def batch (s : Supplied) (first : ClassKey) : List ClassKey :=
  first :: (s.pending.filter (· ≠ first)).take (s.batchLimit - 1)

/-- Takes in one answer; a missing one counts as empty. -/
def settle (s : Supplied) (key : ClassKey) (answer : Option Bytes) : Supplied :=
  match answer with
  | some bytes =>
    if bytes.isEmpty then { s with entries := s.entries.erase key }
    else { s with entries := s.entries.insert key bytes }
  | none => { s with entries := s.entries.erase key }

def settleAll : Supplied → List ClassKey → List Bytes → Supplied
  | s, [], _ => s
  | s, key :: keys, [] => settleAll (s.settle key none) keys []
  | s, key :: keys, bytes :: answers => settleAll (s.settle key (some bytes)) keys answers

def fetch (first : ClassKey) (client : Client) : Action Supplied Unit := do
  let asked := (← Action.state).batch first
  match ← Action.ask (.askedBytes asked) fun told => client.bytesFor told asked with
  | .ok answers => Action.update fun s => s.settleAll asked answers
  | .error e => Action.fail e

/-- The bytes of an entry, fetched if they are pending and there is a client. -/
def bytes (key : ClassKey) (client : Option Client) : Action Supplied (Option Bytes) := do
  match (← Action.state).entries.get? key with
  | none => return none
  | some bytes =>
    if !bytes.isEmpty then return some bytes
    else match client with
      | none => return none
      | some client => do
        fetch key client
        return (← Action.state).entries.get? key

def clear (s : Supplied) : Supplied := { s with entries := .empty }

/-! ### The order of the entries -/

/-- The same entries, those of the keys in front and in their order. -/
def reorder (s : Supplied) (keys : List ClassKey) : Supplied :=
  { s with entries := keys.foldr (fun key t => t.bring key) s.entries }

/-- How the entries lie: the keys in front, after what has happened so far. -/
class Arrangement where
  front : Journal → List ClassKey

/-- The entries lie as they came. -/
instance : Arrangement := ⟨fun _ => []⟩

/-- Brings the entries into the order in which they lie by now. -/
def arrange [Arrangement] : Action Supplied Unit :=
  Action.ofFunction fun s => (.ok (), { s with state := s.state.reorder (Arrangement.front s.journal) })

/-- The bytes of an entry, as the entries lie by then. -/
def serve [Arrangement] (key : ClassKey) (client : Option Client) : Action Supplied (Option Bytes) := do
  arrange
  bytes key client

end Supplied
end ClassCatalog.Cache
