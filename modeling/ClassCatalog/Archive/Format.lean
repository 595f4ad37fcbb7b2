import ClassCatalog.Bytes
import ClassCatalog.Error

/-! Archives as they are read.

An archive has entries with names. How it is written is another matter: whatever reads archives does so in any
`Format`, of which no more is assumed than that an entry that is there is not missed. -/
namespace ClassCatalog.Archive

inductive Compression where
  | stored
  | deflated
  | other (method : Nat)
deriving DecidableEq, Repr

/-- An entry as the directory has it. -/
structure Entry where
  name : String
  encrypted : Bool
  /-- Whether a field says how the entry is encrypted strongly. -/
  strong : Bool
  compression : Compression
  checksum : UInt32
  packedSize : Nat
  size : Nat
  /-- Where its local header stands in the file. -/
  start : Nat
deriving DecidableEq, Repr

/-- An archive that has been opened: its bytes and its entries. -/
structure Opened where
  bytes : Bytes
  entries : List Entry
deriving DecidableEq, Repr

/-- The entry called `name`; of several the last. -/
def Opened.find? (a : Opened) (name : String) : Option Entry :=
  a.entries.reverse.find? fun e => e.name = name

inductive ContentFailure where
  /-- There is no way to the data of the entry. -/
  | unreadable
  | data (failure : ReadFailure)
deriving DecidableEq, Repr

/-- A way to read archives: to open one, and to read one of its entries. -/
class Format where
  open? : Bytes → Option Opened
  content : Opened → Entry → Except ContentFailure Bytes
  /-- The entry is there, whether or not it can be read. -/
  content_ne_notFound (a : Opened) (e : Entry) : content a e ≠ .error (.data .notFound)

end ClassCatalog.Archive
