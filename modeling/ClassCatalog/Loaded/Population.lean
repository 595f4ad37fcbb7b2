import ClassCatalog.Loaded.Body

/-! All classes, placeholders and special classes ever made in a session, by number.

A placeholder stands for a class whose bytes have not been looked at; a special class,
such as an array class, never has any. Numbers stay valid when the catalog has long
forgotten what they stand for. -/
namespace ClassCatalog

structure Placeholder where
  name : String
  loader : LoaderId
  allRoots : Bool
  allMarkers : Bool
  subclasses : List ClassId
deriving DecidableEq, Repr

def Placeholder.new (name : String) (loader : LoaderId) : Placeholder := ⟨name, loader, false, false, []⟩

def Placeholder.addSubclass (p : Placeholder) (id : ClassId) : Placeholder :=
  { p with subclasses := LoadedClass.addOnce p.subclasses id }

inductive Entry where
  | loaded (id : ClassId)
  | placeholder (id : Nat)
  | special (id : Nat)
deriving DecidableEq, Repr

namespace Entry

def isPlaceholder : Entry → Bool
  | placeholder _ => true
  | _ => false

def class? : Entry → Option ClassId
  | loaded id => some id
  | _ => none

def placeholder? : Entry → Option Nat
  | placeholder id => some id
  | _ => none

def isSpecial : Entry → Bool
  | special _ => true
  | _ => false

end Entry

structure Population where
  classes : Array LoadedClass
  placeholders : Array Placeholder
  specials : Array String
deriving DecidableEq, Repr

namespace Population

def empty : Population := ⟨#[], #[], #[]⟩

instance : Inhabited Population := ⟨empty⟩

def class? (p : Population) (id : ClassId) : Option LoadedClass := p.classes[id]?

def placeholder? (p : Population) (id : Nat) : Option Placeholder := p.placeholders[id]?

def modifyClass (p : Population) (id : ClassId) (f : LoadedClass → LoadedClass) : Population :=
  { p with classes := p.classes.modify id f }

def modifyPlaceholder (p : Population) (id : Nat) (f : Placeholder → Placeholder) : Population :=
  { p with placeholders := p.placeholders.modify id f }

/-- Special classes belong to the root. -/
def loaderOf (p : Population) : Entry → Option LoaderId
  | .loaded id => (p.class? id).map LoadedClass.loader
  | .placeholder id => (p.placeholder? id).map Placeholder.loader
  | .special _ => some Loader.root

def nameOf (p : Population) : Entry → Option String
  | .loaded id => (p.class? id).map LoadedClass.name
  | .placeholder id => (p.placeholder? id).map Placeholder.name
  | .special id => p.specials[id]?

/-! ### Hierarchy

The links of classes are followed for as many steps as there are classes, which is all
the way unless they form a cycle. -/

def isSubclassFrom (p : Population) (name : String) : Nat → LoadedClass → Bool
  | 0, c => c.record.superName = some name
  | steps + 1, c =>
    c.record.superName = some name ||
      match c.superClass.bind p.class? with
      | some s => isSubclassFrom p name steps s
      | none => false

/-- Whether a class up the chain of super classes declares `name` as its super class. -/
def isSubclassOf (p : Population) (c : LoadedClass) (name : String) : Bool :=
  p.isSubclassFrom name p.classes.size c

def implementsFrom (p : Population) (name : String) : Nat → LoadedClass → Bool
  | 0, c => c.record.interfaces.contains name
  | steps + 1, c =>
    c.record.interfaces.contains name ||
      ((c.interfaces ++ c.superClass.toList).any fun id =>
        match p.class? id with
        | some d => implementsFrom p name steps d
        | none => false)

/-- Whether the class, an interface of it or a super class declares `name` as an interface. -/
def implements (p : Population) (c : LoadedClass) (name : String) : Bool :=
  p.implementsFrom name p.classes.size c

end Population
end ClassCatalog
