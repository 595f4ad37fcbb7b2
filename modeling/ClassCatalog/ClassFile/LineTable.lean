import ClassCatalog.Bytes

/-! Line number tables.

A table pairs bytecode offsets with source lines, in the order in which the compiler
wrote them: offsets usually ascend, lines may repeat and go back. -/
namespace ClassCatalog.ClassFile

structure LineEntry where
  startPc : UInt16
  line : UInt16
deriving DecidableEq, Repr

abbrev LineTable := List LineEntry

namespace LineTable

/-- The four bytes of an entry from `start` on. -/
def entryAt (bytes : Bytes) (start : Nat) : LineEntry :=
  ⟨(bytes.word? start).getD 0, (bytes.word? (start + 2)).getD 0⟩

/-- The `count` entries from `start` on, if the bytes reach that far. -/
def read? (bytes : Bytes) (start count : Nat) : Option LineTable :=
  if start + 4 * count ≤ bytes.size then
    some ((List.range count).map fun i => entryAt bytes (start + 4 * i))
  else none

theorem read?_length {bytes : Bytes} {start count : Nat} {t : LineTable}
    (h : read? bytes start count = some t) : t.length = count := by
  unfold read? at h
  split at h
  · cases h
    simp
  · cases h

def widen (bounds : Option (UInt16 × UInt16)) (e : LineEntry) : Option (UInt16 × UInt16) :=
  match bounds with
  | none => some (e.line, e.line)
  | some (least, greatest) => some (min least e.line, max greatest e.line)

/-- The least and the greatest line. -/
def bounds? (t : LineTable) : Option (UInt16 × UInt16) := t.foldl widen none

/-- The better of two entries behind `line`: one that is not behind it never counts, and an
entry gives way only to one that is no further and starts earlier. -/
def closer (line : Nat) (best : Option LineEntry) (e : LineEntry) : Option LineEntry :=
  if line < e.line.toNat then
    match best with
    | none => some e
    | some b => if e.line ≤ b.line ∧ e.startPc < b.startPc then some e else some b
  else best

/-- Where `line` starts, or failing that, where the closest following line does; nothing
outside the lines of the table. -/
def bciOf? (t : LineTable) (line : Nat) : Option Nat :=
  match t.find? fun e => e.line.toNat = line with
  | some e => some e.startPc.toNat
  | none =>
    match t.bounds? with
    | some (least, greatest) =>
      if least.toNat ≤ line ∧ line ≤ greatest.toNat then
        (t.foldl (closer line) none).map fun e => e.startPc.toNat
      else none
    | none => none

/-- The line at `bci`: that of the last entry before the first that starts after it. -/
def lineAt? (t : LineTable) (bci : Nat) : Option UInt16 :=
  (t.takeWhile fun e => e.startPc.toNat ≤ bci).getLast?.map LineEntry.line

end LineTable
end ClassCatalog.ClassFile
