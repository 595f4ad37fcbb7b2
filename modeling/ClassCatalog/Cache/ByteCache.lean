import ClassCatalog.Bytes

/-! A cache of bytes that forgets what was used least recently.

The entries stand in a fixed number of slots, each as soon as possible behind the home
slot of its key, with no empty slot in between; the slots are taken as a ring. Every use
of an entry stamps it with the time, and when the cache is too full for a new key, the
entry with the oldest stamp is removed. A removal leaves a hole, and entries that had to
pass over it are moved back (`closeGap`), so that a look-up may stop at the first empty
slot.

The home slot comes from a hash function, which is part of the cache and may be any. -/
namespace ClassCatalog.Cache

structure Slot where
  key : String
  bytes : Bytes
  stamp : Nat
deriving DecidableEq, Repr

structure ByteCache where
  hash : String → Nat
  slots : Array (Option Slot)
  size : Nat
  clock : Nat

/-- A hash that adds up the characters of a key by their places. -/
def polynomialHash (key : String) : Nat :=
  key.toList.foldl (fun h c => (h * 31 + c.toNat) % 4294967296) 0

namespace ByteCache

/-- There are at least four slots. -/
def new (hash : String → Nat) (capacity : Nat) : ByteCache where
  hash := hash
  slots := Array.replicate (max capacity 4) none
  size := 0
  clock := 0

def capacity (c : ByteCache) : Nat := c.slots.size

def slot? (c : ByteCache) (i : Nat) : Option Slot := c.slots[i]?.join

def home (c : ByteCache) (key : String) : Nat := c.hash key % c.capacity

/-- The slot after `i` on the ring. -/
def after (c : ByteCache) (i : Nat) : Nat := (i + 1) % c.capacity

/-! ### Looking up -/

/-- Where `key` is among the next `n` slots, if no empty slot comes first. -/
def probe (c : ByteCache) (key : String) : Nat → Nat → Option Nat
  | 0, _ => none
  | n + 1, i =>
    match c.slot? i with
    | none => none
    | some s => if s.key = key then some i else probe c key n (c.after i)

def find? (c : ByteCache) (key : String) : Option Nat := c.probe key c.capacity (c.home key)

def contains (c : ByteCache) (key : String) : Bool := (c.find? key).isSome

/-- A hit stamps the entry. -/
def get (c : ByteCache) (key : String) : Option Bytes × ByteCache :=
  match c.find? key with
  | none => (none, c)
  | some i =>
    match c.slot? i with
    | none => (none, c)
    | some s =>
      let now := c.clock + 1
      (some s.bytes, { c with
        slots := c.slots.setIfInBounds i (some { s with stamp := now }), clock := now })

/-! ### Removing -/

/-- Whether an entry in slot `i` with this home cannot be moved back to `hole`: its home lies
behind the hole, on the way from there to `i`. -/
def stays (hole home i : Nat) : Bool :=
  if hole ≤ i then hole < home && home ≤ i else hole < home || home ≤ i

/-- Moves entries back over the hole until an empty slot ends the run; none if that takes more
than `fuel` steps. -/
def shiftBack (c : ByteCache) : Nat → Nat → Nat → Option ByteCache
  | 0, _, _ => none
  | fuel + 1, hole, last =>
    let i := c.after last
    match c.slot? i with
    | none => some c
    | some s =>
      if stays hole (c.home s.key) i then shiftBack c fuel hole i
      else
        shiftBack { c with slots := (c.slots.setIfInBounds hole (some s)).setIfInBounds i none }
          fuel i i

/-- Every move brings an entry closer to its home, and there is one in every round. -/
def gapFuel (c : ByteCache) : Nat := (c.capacity + 1) * (c.capacity * c.capacity + 1)

def closeGap (c : ByteCache) (hole : Nat) : ByteCache :=
  (c.shiftBack c.gapFuel hole hole).getD c

/-- Without the entry in slot `i`. -/
def vacate (c : ByteCache) (i : Nat) : ByteCache :=
  closeGap { c with slots := c.slots.setIfInBounds i none, size := c.size - 1 } i

def remove (c : ByteCache) (key : String) : Option Bytes × ByteCache :=
  match c.find? key with
  | none => (none, c)
  | some i => ((c.slot? i).map Slot.bytes, c.vacate i)

/-- The older of two stamped slots; the first one of equals. -/
def older (best : Option (Nat × Nat)) (e : Option Slot × Nat) : Option (Nat × Nat) :=
  match e.1 with
  | none => best
  | some s =>
    match best with
    | none => some (e.2, s.stamp)
    | some (i, stamp) => if s.stamp < stamp then some (e.2, s.stamp) else some (i, stamp)

def oldest? (c : ByteCache) : Option Nat :=
  (c.slots.toList.zipIdx.foldl older none).map Prod.fst

def evictOldest (c : ByteCache) : ByteCache :=
  match c.oldest? with
  | none => c
  | some i => c.vacate i

/-! ### Adding -/

/-- The first empty slot among the next `n`. -/
def vacant? (c : ByteCache) : Nat → Nat → Option Nat
  | 0, _ => none
  | n + 1, i => if (c.slot? i).isNone then some i else vacant? c n (c.after i)

/-- Puts a key that is not there into the first empty slot from its home on. -/
def insertNew (c : ByteCache) (key : String) (bytes : Bytes) : ByteCache :=
  match c.vacant? c.capacity (c.home key) with
  | none => c
  | some i =>
    { c with slots := c.slots.setIfInBounds i (some ⟨key, bytes, c.clock⟩), size := c.size + 1 }

/-- A new key makes room for itself when more than three quarters of the slots are taken. -/
def makeRoom (c : ByteCache) : ByteCache :=
  if c.capacity * 3 / 4 < c.size then c.evictOldest else c

def put (c : ByteCache) (key : String) (bytes : Bytes) : ByteCache :=
  let c := { c with clock := c.clock + 1 }
  match c.find? key with
  | some i => { c with slots := c.slots.setIfInBounds i (some ⟨key, bytes, c.clock⟩) }
  | none => c.makeRoom.insertNew key bytes

def clear (c : ByteCache) : ByteCache := new c.hash c.capacity

end ByteCache
end ClassCatalog.Cache
