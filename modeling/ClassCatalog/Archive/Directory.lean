import ClassCatalog.Archive.Format
import ClassCatalog.Text.CodePage437
import ClassCatalog.Text.Utf8

/-! Archives and their directories.

An archive is read from its end: the end record says how many entries there are and
where the directory with their headers starts. Other data may stand before the archive
and after it; the difference between where the directory is and where it should be
shifts all offsets. One header that cannot be read makes the whole archive unreadable.

Numbers that are too large for their fields stand elsewhere: those of the directory in
a second end record, to which a locator in front of the first one leads, and those of
an entry among its extra fields. -/
namespace ClassCatalog.Archive

/-! ### Numbers, lowest byte first -/

def short? (b : Bytes) (pos : Nat) : Option Nat :=
  match b[pos]?, b[pos + 1]? with
  | some lo, some hi => some (lo.toNat + 256 * hi.toNat)
  | _, _ => none

def number? (b : Bytes) (pos : Nat) : Option Nat :=
  match short? b pos, short? b (pos + 2) with
  | some lo, some hi => some (lo + 65536 * hi)
  | _, _ => none

def large? (b : Bytes) (pos : Nat) : Option Nat :=
  match number? b pos, number? b (pos + 4) with
  | some lo, some hi => some (lo + 4294967296 * hi)
  | _, _ => none

/-- The greatest number of four bytes, in place of one that is too large for them. -/
def overflow : Nat := 0xFFFFFFFF

/-- Offsets have eight bytes. -/
def offsetLimit : Nat := 18446744073709551616

def endSignature : Nat := 0x06054B50
def largeEndSignature : Nat := 0x06064B50
def locatorSignature : Nat := 0x07064B50
def headerSignature : Nat := 0x02014B50
def localSignature : Nat := 0x04034B50

/-! ### The end record -/

structure EndRecord where
  pos : Nat
  disk : Nat
  directoryDisk : Nat
  count : Nat
  total : Nat
  size : Nat
  offset : Nat
  comment : Nat
deriving DecidableEq, Repr

def endRecordSize : Nat := 22

def endRecordAt? (b : Bytes) (pos : Nat) : Option EndRecord := do
  let disk ← short? b (pos + 4)
  let directoryDisk ← short? b (pos + 6)
  let count ← short? b (pos + 8)
  let total ← short? b (pos + 10)
  let size ← number? b (pos + 12)
  let offset ← number? b (pos + 16)
  let comment ← short? b (pos + 20)
  if pos + endRecordSize + comment ≤ b.size then
    return { pos, disk, directoryDisk, count, total, size, offset, comment }
  else none

/-- The last position of the signature among `n` positions up to `pos`. -/
def lastSignature? (b : Bytes) : Nat → Nat → Option Nat
  | 0, _ => none
  | n + 1, pos =>
    if number? b pos = some endSignature then some pos
    else if pos = 0 then none
    else lastSignature? b n (pos - 1)

/-- A comment of the greatest length may stand behind the record. -/
def endRecord? (b : Bytes) : Option EndRecord :=
  if b.size < endRecordSize then none
  else (lastSignature? b 65536 (b.size - endRecordSize)).bind (endRecordAt? b)

/-- Whether a field holds the mark for a number too large for it. -/
def EndRecord.overflows (e : EndRecord) : Bool :=
  e.disk == 0xFFFF || e.directoryDisk == 0xFFFF || e.count == 0xFFFF || e.total == 0xFFFF ||
    e.size == overflow || e.offset == overflow

/-- How many entries the directory has, where it starts, and how much data stands before the archive. -/
structure Directory where
  count : Nat
  start : Nat
  shift : Nat
deriving DecidableEq, Repr

/-- The directory in front of the end record. -/
def EndRecord.smallDirectory? (e : EndRecord) : Option Directory :=
  if e.size + e.offset ≤ e.pos then
    let shift := e.pos - e.size - e.offset
    some ⟨e.count, e.offset + shift, shift⟩
  else none

/-! ### Large archives -/

/-- Where the end record of a large archive should be. -/
structure Locator where
  directoryDisk : Nat
  offset : Nat
deriving DecidableEq, Repr

def locatorSize : Nat := 20

/-- The locator stands right before an end record whose comment is the last of the file. -/
def EndRecord.locator? (e : EndRecord) (b : Bytes) : Option Locator :=
  let distance := locatorSize + endRecordSize + e.comment
  if b.size < distance then none
  else
    let pos := b.size - distance
    if number? b pos = some locatorSignature then do
      return ⟨← number? b (pos + 4), ← large? b (pos + 8)⟩
    else none

/-- The first position of the signature among `n` positions from `pos` on. -/
def firstSignature? (b : Bytes) : Nat → Nat → Option Nat
  | 0, _ => none
  | n + 1, pos => if number? b pos = some largeEndSignature then some pos else firstSignature? b n (pos + 1)

/-- The large end record stands at least so far before the other one. -/
def largeDistance : Nat := 60

/-- The directory as the large end record has it, which stands behind its place if data stands before the
archive. -/
def EndRecord.largeDirectory? (e : EndRecord) (b : Bytes) (l : Locator) : Option Directory :=
  if (!e.overflows && e.disk != l.directoryDisk) || decide (e.pos < largeDistance) then none
  else do
    let pos ← firstSignature? b (e.pos - largeDistance + 1 - l.offset) l.offset
    let shift := pos - l.offset
    let disk ← number? b (pos + 16)
    let directoryDisk ← number? b (pos + 20)
    let count ← large? b (pos + 32)
    let offset ← large? b (pos + 48)
    if disk ≠ directoryDisk ∨ offsetLimit ≤ offset + shift then none
    else return ⟨count, offset + shift, shift⟩

def EndRecord.directory? (e : EndRecord) (b : Bytes) : Option Directory :=
  match e.locator? b with
  | some l => e.largeDirectory? b l
  | none => e.smallDirectory?

/-! ### Entries -/

def Compression.ofNumber (n : Nat) : Compression :=
  if n = 0 then stored else if n = 8 then deflated else other n

/-- The name bytes are UTF-8 if the header says so, else code page 437. -/
def entryName (isUtf8 : Bool) (bytes : List UInt8) : String :=
  String.ofList (if isUtf8 then Text.Utf8.decodeLossy bytes else Text.CodePage437.decode bytes)

/-- The method number that marks strong encryption. -/
def strongEncryption : Nat := 99

/-- A number and where to go on: one that is too large for its own field is at `pos`. -/
def enlarge? (b : Bytes) (n pos : Nat) : Option (Nat × Nat) :=
  if n = overflow then (large? b pos).map fun m => (m, pos + 8) else some (n, pos)

/-- An entry with its large numbers, the first at `pos`, as far as they are there, and the end of the last. -/
def Entry.enlarge (e : Entry) (b : Bytes) (pos : Nat) : Entry × Option Nat :=
  match enlarge? b e.size pos with
  | none => (e, none)
  | some (size, pos) =>
    let e := { e with size }
    match enlarge? b e.packedSize pos with
    | none => (e, none)
    | some (packedSize, pos) =>
      let e := { e with packedSize }
      match enlarge? b e.start pos with
      | none => (e, none)
      | some (start, pos) => ({ e with start }, some pos)

/-- What a field of `length` bytes at `pos` says on the encryption of an entry. A field that is cut off says
nothing; one that is wrong makes the archive unreadable. -/
def Entry.strengthen? (e : Entry) (b : Bytes) (pos length : Nat) : Option Entry :=
  if length ≠ 7 then none
  else
    match short? b pos, short? b (pos + 2), b[pos + 4]?, short? b (pos + 5) with
    | some version, some vendor, some strength, some method =>
      if vendor = 0x4541 ∧ (version = 1 ∨ version = 2) ∧ 1 ≤ strength ∧ strength ≤ 3 then
        some { e with strong := true, compression := .ofNumber method }
      else none
    | _, _, _, _ => some e

/-- An entry after at most `n` of its extra fields, from `pos` on. A field that is cut off is the last one. -/
def Entry.withFields? (b : Bytes) : Nat → Nat → Entry → Option Entry
  | 0, _, e => some e
  | n + 1, pos, e =>
    match short? b pos, short? b (pos + 2) with
    | some kind, some length =>
      let stop := pos + 4 + length
      if kind = 0x0001 then
        match e.enlarge b (pos + 4) with
        | (e, none) => some e
        | (e, some last) => withFields? b n (max last stop) e
      else if kind = 0x9901 then (e.strengthen? b (pos + 4) length).bind (withFields? b n stop)
      else withFields? b n stop e
    | _, _ => some e

/-- The header at `pos` and where the next one starts. -/
def entryAt? (b : Bytes) (shift pos : Nat) : Option (Entry × Nat) := do
  let signature ← number? b pos
  let flags ← short? b (pos + 8)
  let method ← short? b (pos + 10)
  let checksum ← number? b (pos + 16)
  let packedSize ← number? b (pos + 20)
  let size ← number? b (pos + 24)
  let nameLength ← short? b (pos + 28)
  let extraLength ← short? b (pos + 30)
  let commentLength ← short? b (pos + 32)
  let start ← number? b (pos + 42)
  let nameStop := pos + 46 + nameLength
  let stop := nameStop + extraLength + commentLength
  if signature ≠ headerSignature ∨ b.size < stop then none
  else
    let nameBytes := (b.extract (pos + 46) nameStop).toList
    let fields := b.extract nameStop (nameStop + extraLength)
    let e ← Entry.withFields? fields extraLength 0
      { name := entryName (flags / 2048 % 2 = 1) nameBytes, encrypted := flags % 2 = 1, strong := false,
        compression := .ofNumber method, checksum := UInt32.ofNat checksum, packedSize, size, start }
    if (e.compression = .other strongEncryption ∧ e.strong = false) ∨ offsetLimit ≤ e.start + shift then none
    else return ({ e with start := e.start + shift }, stop)

def entriesFrom? (b : Bytes) (shift : Nat) : Nat → List Entry → Nat → Option (List Entry)
  | 0, taken, _ => some taken.reverse
  | n + 1, taken, pos =>
    match entryAt? b shift pos with
    | some (e, next) => entriesFrom? b shift n (e :: taken) next
    | none => none

def open? (b : Bytes) : Option Opened := do
  let e ← endRecord? b
  if !e.overflows && e.disk != e.directoryDisk then none
  else
    let d ← e.directory? b
    let entries ← entriesFrom? b d.shift d.count [] d.start
    return ⟨b, entries⟩

end ClassCatalog.Archive
