import ClassCatalog.Archive.Checksum
import ClassCatalog.Archive.Deflate
import ClassCatalog.Archive.Directory

/-! The contents of archive entries.

Exactly as many bytes are read as the directory gives for an entry. More data than that
is not noticed, nor is a wrong checksum; when the data ends early, the checksum decides
how that is reported.

Deflated data is taken in portions and decoded into a window. What the window holds is
delivered when there is no room for another byte and when the portion is used up. Where
the data turns out to be invalid, only what was delivered before can be read. Archives
that are read so are a `Format`. -/
namespace ClassCatalog.Archive

/-- Where the data of an entry starts, behind its local header. -/
def Opened.dataStart? (a : Opened) (e : Entry) : Option Nat := do
  let signature ← number? a.bytes e.start
  let nameLength ← short? a.bytes (e.start + 26)
  let extraLength ← short? a.bytes (e.start + 28)
  if signature = localSignature then return e.start + 30 + nameLength + extraLength else none

/-- The first `e.size` of the bytes there are, when no more come. -/
def Entry.cut (e : Entry) (there : Bytes) : Except ContentFailure Bytes :=
  if e.size ≤ there.size then .ok (there.extract 0 e.size)
  else if Checksum.crc32 there = e.checksum then .error (.data .unexpectedEof)
  else .error (.data .other)

/-- How many bytes are decoded before they are delivered. -/
def window : Nat := 32768

/-- How many packed bytes are taken at a time. -/
def portion : Nat := 32768

/-- How many bytes have been delivered when the first `portions` of the packed data are used up,
or when they turn out to be invalid. A window that is just full then is still waiting. -/
def delivered (packed : Bytes) : Nat → Nat
  | 0 => 0
  | portions + 1 =>
    match Deflate.inflate (packed.extract 0 ((portions + 1) * portion)) with
    | (out, some .invalid) => max ((out.size - 1) / window * window) (delivered packed portions)
    | (out, _) => out.size

/-- The content of an entry whose deflated data is `packed`. -/
def Entry.inflate (e : Entry) (packed : Bytes) : Except ContentFailure Bytes :=
  match Deflate.inflate packed with
  | (out, none) => e.cut out
  | (out, some .unfinished) =>
    if e.size ≤ out.size then .ok (out.extract 0 e.size) else .error (.data .unexpectedEof)
  | (out, some .invalid) =>
    if e.size ≤ delivered packed ((packed.size + portion - 1) / portion) then
      .ok (out.extract 0 e.size)
    else .error (.data .invalidInput)

def Opened.content (a : Opened) (e : Entry) : Except ContentFailure Bytes :=
  if e.encrypted || e.strong then .error .unreadable
  else
    match a.dataStart? e with
    | none => .error .unreadable
    | some start =>
      let packed := a.bytes.extract start (start + e.packedSize)
      match e.compression with
      | .stored => e.cut packed
      | .deflated => e.inflate packed
      | .other _ => .error .unreadable

/-! ### The format -/

theorem Entry.cut_ne_notFound (e : Entry) (there : Bytes) : e.cut there ≠ .error (.data .notFound) := by
  unfold cut
  split
  · exact fun h => nomatch h
  · split <;> exact fun h => nomatch h

theorem Entry.inflate_ne_notFound (e : Entry) (packed : Bytes) : e.inflate packed ≠ .error (.data .notFound) := by
  unfold inflate
  split
  · exact e.cut_ne_notFound _
  · split <;> exact fun h => nomatch h
  · split <;> exact fun h => nomatch h

theorem Opened.content_ne_notFound (a : Opened) (e : Entry) : a.content e ≠ .error (.data .notFound) := by
  unfold content
  split
  · exact fun h => nomatch h
  · split
    · exact fun h => nomatch h
    · dsimp only
      split
      · exact e.cut_ne_notFound _
      · exact e.inflate_ne_notFound _
      · exact fun h => nomatch h

instance : Format where
  open? := open?
  content := Opened.content
  content_ne_notFound := Opened.content_ne_notFound

end ClassCatalog.Archive
