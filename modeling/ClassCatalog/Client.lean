import ClassCatalog.Bytes
import ClassCatalog.Error
import ClassCatalog.Loader

/-! The connection to the running program.

A client answers two questions: the bytes of some classes, and which loader defines a
class. What it answers may depend on all that has happened before, which is kept in the
journal; so a `Client` is a function of the journal and the question. -/
namespace ClassCatalog

/-- A class by name as one loader sees it. -/
abbrev ClassKey := String × LoaderId

/-- What an operation lets the outside see of it. -/
inductive Event where
  | askedBytes (batch : List ClassKey)
  | askedDefining (name : String) (loader : LoaderId)
  /-- A class was looked for everywhere and not found. -/
  | missing (name : String) (loader : LoaderId)
  /-- The bytes found for a class are not that class. -/
  | unusable (name : String) (loader : LoaderId)
  | unreadableArchive (path : Path)
deriving DecidableEq, Repr

/-- Events, oldest first. -/
abbrev Journal := List Event

inductive ClientFailure where
  /-- The running program is gone. -/
  | terminated
  /-- Another failure, told from the outermost circumstance to the cause. -/
  | failed (chain : List String)
deriving DecidableEq, Repr

def ClientFailure.toError : ClientFailure → ClassError
  | terminated => .targetTerminated
  | failed chain => .client chain

structure Client where
  /-- One byte string per class asked for, in order; an empty one says there is no such class. -/
  bytesFor : Journal → List ClassKey → Except ClientFailure (List Bytes)
  /-- The loader that defines a class when another one is asked for it; -1 if unknown. -/
  definingLoader : Journal → String → LoaderId → Except ClientFailure LoaderId

/-! ### Scripts -/

/-- A client that always answers the same from fixed tables. -/
structure Script where
  bytes : List (ClassKey × Bytes)
  defining : List (ClassKey × LoaderId)
  defaultDefining : LoaderId
  /-- At most so many byte strings are answered at once. -/
  limit : Option Nat
  failsBytes : Bool
  failsDefining : Bool
  failure : ClientFailure

namespace Script

def find? {ν : Type} (key : ClassKey) (l : List (ClassKey × ν)) : Option ν :=
  (l.find? fun e => e.1 = key).map Prod.snd

def client (s : Script) : Client where
  bytesFor _ batch :=
    if s.failsBytes then .error s.failure
    else
      let all := batch.map fun k => (find? k s.bytes).getD #[]
      .ok (match s.limit with
        | some n => all.take n
        | none => all)
  definingLoader _ name loader :=
    if s.failsDefining then .error s.failure
    else .ok ((find? (name, loader) s.defining).getD s.defaultDefining)

end Script
end ClassCatalog
