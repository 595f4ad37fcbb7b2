/-! Paths as text.

A path keeps the text it was written with; what it denotes is read off its parts. Two
paths are the same when their parts are: repeated and trailing slashes and inner dots
do not count, a leading dot and every `..` do. -/
namespace ClassCatalog

structure Path where
  text : String
deriving DecidableEq, Repr, Inhabited

namespace Path

/-- The stretches between the slashes, in order. -/
def pieces : List Char → List (List Char)
  | [] => [[]]
  | c :: rest =>
    if c = '/' then [] :: pieces rest
    else match pieces rest with
      | [] => [[c]]
      | p :: ps => (c :: p) :: ps

inductive Part where
  | root
  | here
  | parent
  | name (text : String)
deriving DecidableEq, Repr

def partOf (piece : List Char) : Option Part :=
  if piece = [] ∨ piece = ['.'] then none
  else if piece = ['.', '.'] then some .parent
  else some (.name (String.ofList piece))

def isAbsolute (p : Path) : Bool := p.text.toList.head? = some '/'

def parts (p : Path) : List Part :=
  match pieces p.text.toList with
  | [] :: _ :: _ => .root :: (pieces p.text.toList).filterMap partOf
  | ['.'] :: rest => .here :: rest.filterMap partOf
  | all => all.filterMap partOf

def same (p q : Path) : Bool := p.parts = q.parts

theorem same_refl (p : Path) : p.same p = true := by simp [same]

/-- `other` as seen from `base`. -/
def join (base : Path) (other : String) : Path :=
  if isAbsolute ⟨other⟩ then ⟨other⟩
  else if base.text.isEmpty || base.text.toList.getLast? = some '/' then ⟨base.text ++ other⟩
  else ⟨base.text ++ "/" ++ other⟩

/-- What follows the last dot of a name, if something stands before that dot. -/
def extensionOf (name : List Char) : Option (List Char) :=
  let after := name.reverse.takeWhile (· ≠ '.')
  match name.reverse.dropWhile (· ≠ '.') with
  | [] => none
  | [_] => none
  | _ => some after.reverse

def extension (p : Path) : Option (List Char) :=
  match p.parts.getLast? with
  | some (.name n) => extensionOf n.toList
  | _ => none

/-- Archives are told by their extension, `jar` or `zip` in either case. -/
def isArchive (p : Path) : Bool :=
  match p.extension with
  | some e => let e := e.map Char.toLower
    e = ['j', 'a', 'r'] || e = ['z', 'i', 'p']
  | none => false

/-! ### Examples -/

example : same ⟨"a//b"⟩ ⟨"a/./b/"⟩ = true := by decide +kernel
example : same ⟨"./a"⟩ ⟨"a"⟩ = false := by decide +kernel
example : isArchive ⟨"lib/A.JaR/"⟩ = true := by decide +kernel
example : isArchive ⟨".jar"⟩ = false := by decide +kernel

end Path
end ClassCatalog
