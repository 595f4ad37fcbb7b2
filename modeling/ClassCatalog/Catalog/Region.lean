import ClassCatalog.Catalog.Lookup
import ClassCatalog.ClassFile.Instruction

/-! From source lines to bytecode.

A stretch of source lines lies in a method of a class or of a class nested in it. A
method covers it from where its first line starts up to where the line behind it starts;
past the end of the method's lines it reaches to the last instruction. -/
namespace ClassCatalog.Catalog
open ClassFile

/-- A stretch of bytecode inside a method. -/
structure Region where
  className : String
  methodName : String
  signature : String
  first : Nat
  last : Nat
deriving DecidableEq, Repr

/-- The longest class name, in characters: its constant has two bytes for its length. -/
def maxName : Nat := 65535

/-- Whether a nested name extends the name of its owner. -/
def extendsName (outer nested : String) : Bool :=
  outer.toList.isPrefixOf nested.toList && outer.length < nested.length

/-- The least offset among `first` and those of the lines after `start` and before `stop`. No
table has lines beyond 65535. -/
def leastOffset (lines : LineTable) (first start stop : Nat) : Nat :=
  ((List.range (min stop 65536)).filterMap fun line =>
    if start < line then lines.bciOf? line else none).foldl min first

/-- The line at which the stretch ends, one further if the method still has lines there. -/
def endLine (r : Record) (method stop : Nat) : Nat :=
  match r.lineBounds? method with
  | some (_, greatest) => if stop ≤ greatest.toNat then stop + 1 else stop
  | none => stop

def lastInstruction (code : Option Bytes) : Nat :=
  let code := code.getD #[]
  Instruction.previousStart code code.size

/-- The region in a method whose first line was found at `first`. -/
def regionIn (id : ClassId) (k : LoadedClass) (method : Nat) (m : Method) (first start stop : Nat) :
    Action Catalog (Option Region) := do
  let r := k.record
  let stop := endLine r method stop
  let lines := (r.lineTable? method).getD []
  let region (last : Nat) : Region :=
    ⟨r.name, m.name, m.signature, leastOffset lines first start (stop - 1), last⟩
  match r.findLine stop with
  | .found other last => return if other = method then some (region last) else none
  | _ => return some (region (lastInstruction (← onClass none id (LoadedClass.bytecode method))))

/-- The region in the first of the nested classes that has one. A class without line tables
ends the search. -/
def regionInNested (o : Outside) (loader : LoaderId) (outer : String)
    (search : ClassId → Action Catalog (Option Region)) : List String → Action Catalog (Option Region)
  | [] => return none
  | nested :: rest => do
    if !extendsName outer nested then regionInNested o loader outer search rest
    else
      match ← lookup o nested loader with
      | none => regionInNested o loader outer search rest
      | some id =>
        match ← Action.attempt (search id) with
        | .ok (some region) => return some region
        | .ok none => regionInNested o loader outer search rest
        | .error (.noDebugInfo _) => return none
        | .error e => Action.fail e

/-- The region for a class, with classes nested no deeper than `depth`. -/
def regionFrom (o : Outside) (start stop : Nat) : Nat → ClassId → Action Catalog (Option Region)
  | 0, _ => return none
  | depth + 1, id => do
    match (← Action.state).population.class? id with
    | none => return none
    | some k =>
      let r := k.record
      let nested := regionInNested o k.loader k.name (regionFrom o start stop depth) r.nested
      match r.findLine start with
      | .noDebugInfo => Action.fail (.noDebugInfo r.name)
      | .notFound => nested
      | .found method first =>
        match r.methods[method]? with
        | none => return none
        | some m =>
          if m.isInitializer then
            match ← nested with
            | some region => return some region
            | none => regionIn id k method m first start stop
          else regionIn id k method m first start stop

/-- The method and bytecode for the source lines from `start` to `stop` of a class. Nested names
grow longer with each level, so their depth has a bound. -/
def regionForLines (o : Outside) (id : ClassId) (start stop : Nat) : Action Catalog (Option Region) :=
  if stop < start then return none else regionFrom o start stop (maxName + 2) id

/-- All the bytecode of a method. -/
def wholeMethod (id : ClassId) (name signature : String) : Action Catalog (Option Region) := do
  match (← Action.state).population.class? id with
  | none => return none
  | some k =>
    match k.record.methodIndex? name signature with
    | none => return none
    | some i =>
      let length ← onClass 0 id (LoadedClass.bytecodeLength i)
      return some ⟨k.name, name, signature, 0, length - 1⟩

end ClassCatalog.Catalog
