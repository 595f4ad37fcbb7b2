/-! Class loaders.

Loaders are numbered; 0 is the root, and a parent of -1 means the root as well. A graph
records the parent of each reported loader. It may be wrong: `ancestry` follows parents
for as many steps as there are slots and no further, so a cycle does no harm. -/
namespace ClassCatalog

abbrev LoaderId := Int

namespace Loader

def root : LoaderId := 0

def none : LoaderId := -1

/-- The parent that stands for a loader never reported. -/
def unseen : LoaderId := -2147483648

/-- The missing loader is the root. -/
def normalize (l : LoaderId) : LoaderId := if l = none then root else l

structure Graph where
  parents : Array (Option LoaderId)
deriving DecidableEq, Repr

namespace Graph

def new : Graph := ⟨#[some root]⟩

instance : Inhabited Graph := ⟨new⟩

def report (parent : LoaderId) : Option LoaderId := if parent = unseen then .none else some parent

/-- The parents of loaders 0, 1, … in order; the root's own entry does not count. -/
def ofTable : List LoaderId → Graph
  | [] => new
  | _ :: rest => ⟨(some root :: rest.map report).toArray⟩

def size (g : Graph) : Nat := g.parents.size

/-- Room is made by doubling. A negative child and the root are left alone. -/
def add (g : Graph) (child parent : LoaderId) : Graph :=
  if child ≤ 0 then g
  else
    let i := child.toNat
    let room := if i < g.size then g.parents
      else g.parents ++ Array.replicate (max (g.size * 2) (i + 1) - g.size) .none
    ⟨room.setIfInBounds i (report parent)⟩

def parent? (g : Graph) (l : LoaderId) : Option LoaderId :=
  if l < 0 then .none else (g.parents[l.toNat]?.join).map normalize

def knows (g : Graph) (l : LoaderId) : Bool := (g.parent? l).isSome

/-- The loader to ask after `l`. -/
def next? (g : Graph) (l : LoaderId) : Option LoaderId :=
  if l = root then .none else (g.parent? l).filter (· ≠ l)

/-- `l` and at most `steps` loaders after it. -/
def walk (g : Graph) : Nat → LoaderId → List LoaderId
  | 0, l => [l]
  | steps + 1, l => l :: match g.next? l with
    | .none => []
    | some p => walk g steps p

/-- `l`, then each parent up to and including the root. -/
def ancestry (g : Graph) (l : LoaderId) : List LoaderId := g.walk g.size l

/-- Whether `a` is met strictly above `l`. -/
def isAncestor (g : Graph) (a l : LoaderId) : Bool := a ≠ l && (g.ancestry l).tail.contains a

/-! ### The walk -/

theorem walk_length (g : Graph) (steps : Nat) (l : LoaderId) :
    (g.walk steps l).length ≤ steps + 1 := by
  induction steps generalizing l with
  | zero => simp [walk]
  | succ steps ih =>
    unfold walk
    cases g.next? l with
    | none => simp
    | some p =>
      have := ih p
      simp only [List.length_cons]
      omega

theorem walk_head (g : Graph) (steps : Nat) (l : LoaderId) : (g.walk steps l).head? = some l := by
  cases steps <;> rfl

end Graph
end Loader
end ClassCatalog
