import ClassCatalog.Error
import ClassCatalog.StackMap.Frame

/-! Stack map tables.

The first frame of a table stands at its delta, every later one one past the frame
before it plus its delta. So when code grows at one place, changing the delta of the
first frame behind it moves all later frames along; offsets that types hold are changed
one by one. -/
namespace ClassCatalog.StackMap

structure Table where
  frames : List Frame
deriving DecidableEq, Repr

namespace Table

def empty : Table := ⟨[]⟩

/-! ### Bytes -/

def encode (t : Table) : List UInt8 :=
  wordBytes (UInt16.ofNat t.frames.length) ++ t.frames.flatMap Frame.encode

/-- `n` frames; fails with what was left when a frame could not be read. -/
def takeFrames : Nat → List Frame → List UInt8 → Except (List UInt8) (List Frame)
  | 0, taken, _ => .ok taken.reverse
  | n + 1, taken, bytes =>
    match Frame.decode? bytes with
    | some (f, rest) => takeFrames n (f :: taken) rest
    | none => .error bytes

/-- The table at the front of `bytes`. A frame that cannot be read is reported where it starts. -/
def decode (className : String) (bytes : List UInt8) : Except ClassError Table :=
  match Frame.takeWord? bytes with
  | none => .error (.format className 0 .malformedStackMap)
  | some (n, rest) =>
    match takeFrames n.toNat [] rest with
    | .ok frames => .ok ⟨frames⟩
    | .error left => .error (.format className (bytes.length - left.length) .malformedStackMap)

/-! ### Offsets -/

/-- Where frames stand that come after one at `last`, if any. -/
def offsetsFrom : Option Nat → List Frame → List Nat
  | _, [] => []
  | none, f :: rest => f.delta.toNat :: offsetsFrom (some f.delta.toNat) rest
  | some last, f :: rest =>
    let here := last + f.delta.toNat + 1
    here :: offsetsFrom (some here) rest

def offsets (t : Table) : List Nat := offsetsFrom none t.frames

end Table
end ClassCatalog.StackMap
