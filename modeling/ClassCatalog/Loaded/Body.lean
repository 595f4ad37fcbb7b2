import ClassCatalog.Loaded.Basic

/-! Method bodies of loaded classes.

The body of a method is the one in the record or its replacement. Its layout is found by
a scan the first time it is needed and remembered until the body or the attribute names
change; a scan that fails is not remembered. -/
namespace ClassCatalog.LoadedClass
open ClassFile

def info? (c : LoadedClass) (i : Nat) : Option Bytes := do
  let m ← c.methods[i]?
  match m.replacement with
  | some bytes => some bytes
  | none => c.record.methodInfo? i

def isReplaced (c : LoadedClass) (i : Nat) : Bool :=
  (c.methods[i]?.bind MethodState.replacement).isSome

def setMethod (c : LoadedClass) (i : Nat) (f : MethodState → MethodState) : LoadedClass :=
  { c with methods := c.methods.modify i f }

/-- What a scan of the current body finds. -/
def scan (c : LoadedClass) (info : Bytes) : Except ClassError MethodLayout :=
  MethodLayout.ofInfo c.name info c.attributeNames

/-- The current body and its layout; nothing if there is no such method. -/
def infoAndLayout (i : Nat) : Action LoadedClass (Option (Bytes × MethodLayout)) := do
  let c ← Action.state
  match c.info? i with
  | none => return none
  | some info =>
    match c.methods[i]?.bind MethodState.layout with
    | some l => return some (info, l)
    | none =>
      let l ← Action.ofExcept (c.scan info)
      Action.put (c.setMethod i fun m => { m with layout := some l })
      return some (info, l)

def layout (i : Nat) : Action LoadedClass (Option MethodLayout) := do
  return (← infoAndLayout i).map Prod.snd

/-- The body, its layout and where its code stands, for a method with code. -/
def codeLayout (i : Nat) : Action LoadedClass (Option (Bytes × MethodLayout × CodeLayout)) := do
  return (← infoAndLayout i).bind fun (info, l) => l.code.map fun code => (info, l, code)

def bytecode (i : Nat) : Action LoadedClass (Option Bytes) := do
  return (← codeLayout i).bind fun (info, _, code) => info.slice? code.start code.length

def bytecodeLength (i : Nat) : Action LoadedClass Nat := do
  return ((← codeLayout i).map fun (_, _, code) => code.length).getD 0

def handlersOffset (i : Nat) : Action LoadedClass (Option Nat) := do
  return (← codeLayout i).map fun (_, _, code) => code.handlers

def localVariablesOffset (i : Nat) : Action LoadedClass (Option Nat) := do
  return (← codeLayout i).bind fun (_, l, _) => l.localVariables

def localVariableTypesOffset (i : Nat) : Action LoadedClass (Option Nat) := do
  return (← codeLayout i).bind fun (_, l, _) => l.localVariableTypes

def stackMapOffset (i : Nat) : Action LoadedClass (Option Nat) := do
  return (← codeLayout i).bind fun (_, l, _) => l.stackMap

def tableOf (found : Option (Bytes × MethodLayout × CodeLayout))
    (offset : MethodLayout → Option Nat) : List Variable :=
  match found with
  | none => []
  | some (info, l, _) => ((offset l).map (Variable.tableAt info)).getD []

def localVariables (i : Nat) : Action LoadedClass (List Variable) := do
  return tableOf (← codeLayout i) MethodLayout.localVariables

def localVariableTypes (i : Nat) : Action LoadedClass (List Variable) := do
  return tableOf (← codeLayout i) MethodLayout.localVariableTypes

/-! ### Changing bodies -/

/-- Puts a replacement in place, which has to scan with the attribute names there are. -/
def replaceBody (i : Nat) (info : Bytes) : Action LoadedClass Unit := do
  let c ← Action.state
  if c.methods.size ≤ i then Action.fail (.misplaced (.noMethod c.name i))
  else
    let l ← Action.ofExcept (c.scan info)
    Action.put (c.setMethod i fun m => { m with replacement := some info, layout := some l })

def restoreBody (c : LoadedClass) (i : Nat) : LoadedClass :=
  c.setMethod i fun m => { m with replacement := none, layout := none }

def forgetLayouts (c : LoadedClass) : LoadedClass :=
  { c with methods := c.methods.map fun m => { m with layout := none } }

def addAttributeName (c : LoadedClass) (index : UInt16) (kind : AttributeKind) : LoadedClass :=
  { c with attributeNames := c.attributeNames.add index kind }.forgetLayouts

end ClassCatalog.LoadedClass
