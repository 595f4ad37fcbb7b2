import ClassCatalog.Bytes

/-! Stack map frames and their bytes.

A frame starts with a tag that gives its form and, for the short forms, its delta. A
decoder takes a frame off the front of the bytes and leaves the rest. Deltas above 63 do
not fit the short forms of `same` and `sameOne`; these have extended forms with the delta
in two bytes of its own. -/
namespace ClassCatalog.StackMap

inductive VerificationType where
  | top
  | integer
  | float
  | double
  | long
  | null
  | uninitializedThis
  /-- By the constant that names the class. -/
  | object (index : UInt16)
  /-- By the offset of the instruction that made the object. -/
  | uninitialized (offset : UInt16)
deriving DecidableEq, Repr

namespace VerificationType

def encode : VerificationType → List UInt8
  | top => [0]
  | integer => [1]
  | float => [2]
  | double => [3]
  | long => [4]
  | null => [5]
  | uninitializedThis => [6]
  | object i => 7 :: wordBytes i
  | uninitialized o => 8 :: wordBytes o

def decode? : List UInt8 → Option (VerificationType × List UInt8)
  | [] => none
  | tag :: rest =>
    if tag = 0 then some (top, rest)
    else if tag = 1 then some (integer, rest)
    else if tag = 2 then some (float, rest)
    else if tag = 3 then some (double, rest)
    else if tag = 4 then some (long, rest)
    else if tag = 5 then some (null, rest)
    else if tag = 6 then some (uninitializedThis, rest)
    else match rest with
      | hi :: lo :: rest =>
        if tag = 7 then some (object (word hi lo), rest)
        else if tag = 8 then some (uninitialized (word hi lo), rest)
        else none
      | _ => none

end VerificationType

inductive Frame where
  | same (delta : UInt16) (extended : Bool)
  | sameOne (delta : UInt16) (stack : VerificationType) (extended : Bool)
  | chop (delta : UInt16) (count : UInt8)
  | append (delta : UInt16) (locals : List VerificationType)
  | full (delta : UInt16) (locals stack : List VerificationType)
deriving DecidableEq, Repr

namespace Frame

def delta : Frame → UInt16
  | same d _ | sameOne d _ _ | chop d _ | append d _ | full d _ _ => d

/-- The verification types of a frame, locals first. -/
def types : Frame → List VerificationType
  | same .. | chop .. => []
  | sameOne _ t _ => [t]
  | append _ ls => ls
  | full _ ls ss => ls ++ ss

/-- The greatest delta of the short forms. -/
def shortMax : UInt16 := 63

/-- A frame whose delta has outgrown the short form becomes extended. -/
def setDelta (d : UInt16) : Frame → Frame
  | same _ ext => same d (ext || shortMax < d)
  | sameOne _ t ext => sameOne d t (ext || shortMax < d)
  | chop _ n => chop d n
  | append _ ls => append d ls
  | full _ ls ss => full d ls ss

/-! ### Bytes -/

def encodeTypes (ts : List VerificationType) : List UInt8 := ts.flatMap VerificationType.encode

def lengthBytes (ts : List VerificationType) : List UInt8 := wordBytes (UInt16.ofNat ts.length)

def encode : Frame → List UInt8
  | same d ext => if ext || shortMax < d then 251 :: wordBytes d else [low d]
  | sameOne d t ext =>
    (if ext || shortMax < d then 247 :: wordBytes d else [64 + low d]) ++ t.encode
  | chop d n => (251 - n) :: wordBytes d
  | append d ls => (251 + UInt8.ofNat ls.length) :: wordBytes d ++ encodeTypes ls
  | full d ls ss =>
    255 :: wordBytes d ++ lengthBytes ls ++ encodeTypes ls ++ lengthBytes ss ++ encodeTypes ss

def takeWord? : List UInt8 → Option (UInt16 × List UInt8)
  | hi :: lo :: rest => some (word hi lo, rest)
  | _ => none

/-- `n` verification types, the ones taken so far in reverse. -/
def takeTypesFrom? : Nat → List VerificationType → List UInt8 →
    Option (List VerificationType × List UInt8)
  | 0, taken, bytes => some (taken.reverse, bytes)
  | n + 1, taken, bytes =>
    match VerificationType.decode? bytes with
    | some (t, rest) => takeTypesFrom? n (t :: taken) rest
    | none => none

def takeTypes? (n : Nat) (bytes : List UInt8) : Option (List VerificationType × List UInt8) :=
  takeTypesFrom? n [] bytes

/-- The frame behind a tag. Tags 128 to 246 are reserved. -/
def decodeTagged? (tag : UInt8) (bytes : List UInt8) : Option (Frame × List UInt8) :=
  if tag < 64 then some (same tag.toUInt16 false, bytes)
  else if tag < 128 then do
    let (t, bytes) ← VerificationType.decode? bytes
    return (sameOne (tag - 64).toUInt16 t false, bytes)
  else if tag < 247 then none
  else do
    let (d, bytes) ← takeWord? bytes
    if tag = 247 then
      let (t, bytes) ← VerificationType.decode? bytes
      return (sameOne d t true, bytes)
    else if tag < 251 then return (chop d (251 - tag), bytes)
    else if tag = 251 then return (same d true, bytes)
    else if tag < 255 then
      let (ls, bytes) ← takeTypes? (tag - 251).toNat bytes
      return (append d ls, bytes)
    else
      let (n, bytes) ← takeWord? bytes
      let (ls, bytes) ← takeTypes? n.toNat bytes
      let (m, bytes) ← takeWord? bytes
      let (ss, bytes) ← takeTypes? m.toNat bytes
      return (full d ls ss, bytes)

def decode? : List UInt8 → Option (Frame × List UInt8)
  | [] => none
  | tag :: rest => decodeTagged? tag rest

end Frame
end ClassCatalog.StackMap
