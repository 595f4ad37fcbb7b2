import ClassCatalog.Action
import ClassCatalog.Archive.Format
import ClassCatalog.Files.Tree

/-! The pool of open archives.

At most `capacity` archives are open at once, the one used last at the end. An archive
that is open is used as it was when it was opened, whatever has become of its file; one
that cannot be opened leaves the pool as it was. -/
namespace ClassCatalog.ClassPath
open Files

structure Pool where
  capacity : Nat
  opened : List (Path × Archive.Opened)

namespace Pool

/-- One archive at least can be open. -/
def new (capacity : Nat) : Pool := ⟨max capacity 1, []⟩

def size (p : Pool) : Nat := p.opened.length

def find? (p : Pool) (path : Path) : Option (Path × Archive.Opened) :=
  p.opened.find? fun e => e.1.same path

/-- With the entry for `path` moved to the end. -/
def touch (p : Pool) (path : Path) (e : Path × Archive.Opened) : Pool :=
  { p with opened := p.opened.eraseP (fun e => e.1.same path) ++ [e] }

/-- With one more archive, for which others are closed from the front. -/
def push (p : Pool) (e : Path × Archive.Opened) : Pool :=
  { p with opened := p.opened.drop (p.opened.length + 1 - p.capacity) ++ [e] }

variable [Archive.Format]

def openFile (files : Tree) (path : Path) : Except ClassError Archive.Opened :=
  match files.read path with
  | .error e => .error (.read path e)
  | .ok bytes =>
    match Archive.Format.open? bytes with
    | some a => .ok a
    | none => .error (.archive path)

/-- The archive at `path`, opened if it is not open, and the pool after that. -/
def access (files : Tree) (path : Path) (p : Pool) : Except ClassError Archive.Opened × Pool :=
  match p.find? path with
  | some e => (.ok e.2, p.touch path e)
  | none =>
    match openFile files path with
    | .ok a => (.ok a, p.push (path, a))
    | .error e => (.error e, p)

def readEntry (path : Path) (name : String) (a : Archive.Opened) : Except ClassError Bytes :=
  match a.find? name with
  | none => .error (.missingEntry path name)
  | some e =>
    match Archive.Format.content a e with
    | .ok bytes => .ok bytes
    | .error .unreadable => .error (.archive path)
    | .error (.data cause) => .error (.read path cause)

def close (p : Pool) : Pool := { p with opened := [] }

end Pool
end ClassCatalog.ClassPath
