import ClassCatalog.Bytes

/-! Local variable tables. The table of generic types has the same form; its descriptor
index points to a signature. -/
namespace ClassCatalog.ClassFile

structure Variable where
  startPc : UInt16
  length : UInt16
  nameIndex : UInt16
  descriptorIndex : UInt16
  slot : UInt16
deriving DecidableEq, Repr

namespace Variable

/-- The ten bytes of an entry from `start` on. -/
def entryAt (info : Bytes) (start : Nat) : Variable :=
  let field (i : Nat) := (info.word? (start + 2 * i)).getD 0
  ⟨field 0, field 1, field 2, field 3, field 4⟩

/-- The table with its length field at `pos`; empty where it is cut off. -/
def tableAt (info : Bytes) (pos : Nat) : List Variable :=
  match info.word? pos with
  | some count =>
    if pos + 2 + 10 * count.toNat ≤ info.size then
      (List.range count.toNat).map fun i => entryAt info (pos + 2 + 10 * i)
    else []
  | none => []

end Variable
end ClassCatalog.ClassFile
