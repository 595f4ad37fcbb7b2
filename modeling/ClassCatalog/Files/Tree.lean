import ClassCatalog.Bytes
import ClassCatalog.Error
import ClassCatalog.Table

/-! Files.

A tree of directories and files is a table from places to what is there; a place is the
list of names that leads to it from the outermost directory. `locate` follows a path
through the tree step by step, as the path is written: a step from a file fails, `..`
leads back, and a path that ends in a slash has to lead to a directory. -/
namespace ClassCatalog.Files

abbrev Place := List String

inductive Node where
  | file (content : Bytes)
  | directory
deriving DecidableEq, Repr

structure Tree where
  nodes : Table Place Node
deriving DecidableEq, Repr

namespace Tree

def empty : Tree := ⟨Table.empty⟩

instance : Inhabited Tree := ⟨empty⟩

def at? (t : Tree) (place : Place) : Option Node :=
  if place = [] then some .directory else t.nodes.get? place

/-! ### Following paths -/

/-- The longest name, in bytes. -/
def maxName : Nat := 255

/-- The longest path, in bytes. -/
def maxPath : Nat := 4095

def follow (t : Tree) : Place → List (List Char) → Except ReadFailure Place
  | place, [] => .ok place
  | place, piece :: rest =>
    match t.at? place with
    | none => .error .notFound
    | some (.file _) => .error .notADirectory
    | some .directory =>
      if piece = [] ∨ piece = ['.'] then follow t place rest
      else if piece = ['.', '.'] then follow t place.dropLast rest
      else if maxName < (String.ofList piece).utf8ByteSize then .error .nameTooLong
      else follow t (place ++ [String.ofList piece]) rest

/-- The place a path leads to and what is there. -/
def locate (t : Tree) (p : Path) : Except ReadFailure (Place × Node) :=
  if p.text.toList.contains (Char.ofNat 0) then .error .invalidInput
  else if p.text.isEmpty then .error .notFound
  else if maxPath < p.text.utf8ByteSize then .error .nameTooLong
  else
    match t.follow [] (Path.pieces p.text.toList) with
    | .error e => .error e
    | .ok place =>
      match t.at? place with
      | some node => .ok (place, node)
      | none => .error .notFound

def directory? (t : Tree) (p : Path) : Option Place :=
  match t.locate p with
  | .ok (place, .directory) => some place
  | _ => none

def isDirectory (t : Tree) (p : Path) : Bool := (t.directory? p).isSome

def isFile (t : Tree) (p : Path) : Bool :=
  match t.locate p with
  | .ok (_, .file _) => true
  | _ => false

def read (t : Tree) (p : Path) : Except ReadFailure Bytes :=
  match t.locate p with
  | .ok (_, .file content) => .ok content
  | .ok (_, .directory) => .error .isADirectory
  | .error e => .error e

/-! ### Listing -/

/-- The names in a directory. -/
def children (t : Tree) (place : Place) : List String :=
  t.nodes.keys.filterMap fun k => if k ≠ [] ∧ k.dropLast = place then k.getLast? else none

/-- What leads from one place to another below it or the same. -/
def below? (place : Place) (k : Place) : Option Place :=
  if place.isPrefixOf k then some (k.drop place.length) else none

/-- The files at and below a place, as seen from it. -/
def filesBelow (t : Tree) (place : Place) : List Place :=
  t.nodes.entries.filterMap fun (k, node) =>
    match node with
    | .file _ => below? place k
    | .directory => none

/-! ### Changing -/

/-- Where a path to be written leads, when nothing is in its way. -/
def target (p : Path) : Place :=
  (Path.pieces p.text.toList).foldl (fun place piece =>
    if piece = [] ∨ piece = ['.'] then place
    else if piece = ['.', '.'] then place.dropLast
    else place ++ [String.ofList piece]) []

/-- Whether a file stands at the place or on the way to it. -/
def blocked (t : Tree) (place : Place) : Bool :=
  (List.range (place.length + 1)).any fun n =>
    match t.at? (place.take n) with
    | some (.file _) => true
    | _ => false

def makeDirectory (t : Tree) (place : Place) : Tree :=
  match t.at? place with
  | some _ => t
  | none => ⟨t.nodes.insert place .directory⟩

/-- Makes a directory and all those it stands in, unless a file is in the way. -/
def makeDirectories (t : Tree) (place : Place) : Tree :=
  if t.blocked place then t
  else (List.range (place.length + 1)).foldl (fun t n => t.makeDirectory (place.take n)) t

/-- Puts a file, in place of the file that stands there. A directory is left as it is. -/
def write (t : Tree) (p : Path) (content : Bytes) : Tree :=
  let place := target p
  if t.blocked place.dropLast then t
  else
    let t := t.makeDirectories place.dropLast
    match t.at? place with
    | some .directory => t
    | _ => ⟨t.nodes.insert place (.file content)⟩

/-- Removes a file, or a directory with everything in it. -/
def delete (t : Tree) (p : Path) : Tree :=
  match t.locate p with
  | .ok (place, _) => ⟨⟨t.nodes.entries.filter fun e => (below? place e.1).isNone⟩⟩
  | .error _ => t

end Tree
end ClassCatalog.Files
