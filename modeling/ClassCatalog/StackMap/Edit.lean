import ClassCatalog.StackMap.Table

/-! Edits of the code and what they do to its stack map.

When `count` bytes are inserted at `pos`, the frame recorded there moves with the old
instruction unless the new code binds to what follows; an instruction that grows at
`pos` leaves its own frame where it is. An edit can fail where an offset outgrows two
bytes; what it had changed before that stays changed. -/
namespace ClassCatalog.StackMap

inductive EditKind where
  /-- New instructions stand at the position. -/
  | insert
  /-- The instruction at the position has grown. -/
  | widen
deriving DecidableEq, Repr

structure Edit where
  pos : Nat
  count : Nat
  kind : EditKind
  bindsToFollowing : Bool
deriving DecidableEq, Repr

namespace Edit

/-- Whether a frame at `offset` moves. -/
def movesFrame (e : Edit) (offset : Nat) : Bool :=
  match e.kind with
  | .insert => e.pos < offset || (offset == e.pos && !e.bindsToFollowing)
  | .widen => e.pos < offset

/-- Whether an object made at `offset` moves. -/
def movesOrigin (e : Edit) (offset : Nat) : Bool :=
  match e.kind with
  | .insert => e.pos ≤ offset
  | .widen => e.pos < offset

end Edit

/-- What is left of an edit: what it edited, whether that changed, and why it stopped. -/
structure Edited (α : Type) where
  value : α
  changed : Bool
  stopped : Option Misplaced

namespace Edit

def editType (e : Edit) : VerificationType → Edited VerificationType
  | .uninitialized o =>
    if e.movesOrigin o.toNat then
      let moved := o.toNat + e.count
      if moved < 65536 then ⟨.uninitialized (UInt16.ofNat moved), true, none⟩
      else ⟨.uninitialized o, false, some (.offsetTooLarge moved)⟩
    else ⟨.uninitialized o, false, none⟩
  | t => ⟨t, false, none⟩

/-- Edits one after another up to the first that fails; the rest stay as they are. -/
def editAll {α : Type} (edit : α → Edited α) : List α → Edited (List α)
  | [] => ⟨[], false, none⟩
  | a :: rest =>
    let first := edit a
    match first.stopped with
    | some cause => ⟨first.value :: rest, first.changed, some cause⟩
    | none =>
      let others := editAll edit rest
      ⟨first.value :: others.value, first.changed || others.changed, others.stopped⟩

def editTypes (e : Edit) : Frame → Edited Frame
  | .sameOne d t ext =>
    let r := e.editType t
    ⟨.sameOne d r.value ext, r.changed, r.stopped⟩
  | .append d ls =>
    let r := editAll e.editType ls
    ⟨.append d r.value, r.changed, r.stopped⟩
  | .full d ls ss =>
    let r := editAll e.editType (ls ++ ss)
    ⟨.full d (r.value.take ls.length) (r.value.drop ls.length), r.changed, r.stopped⟩
  | f => ⟨f, false, none⟩

/-- Moves the first frame behind the edit, given where the frame before it stands. -/
def moveFrom (e : Edit) : Option Nat → List Frame → Edited (List Frame)
  | _, [] => ⟨[], false, none⟩
  | last, f :: rest =>
    let here := match last with
      | none => f.delta.toNat
      | some last => last + f.delta.toNat + 1
    if e.movesFrame here then
      let delta := f.delta.toNat + e.count
      if delta < 65536 then ⟨f.setDelta (UInt16.ofNat delta) :: rest, true, none⟩
      else ⟨f :: rest, false, some (.deltaTooLarge delta)⟩
    else
      let r := moveFrom e (some here) rest
      ⟨f :: r.value, r.changed, r.stopped⟩

/-- Frames are moved first, then the types in all of them. -/
def apply (e : Edit) (t : Table) : Edited Table :=
  if e.count = 0 then ⟨t, false, none⟩
  else
    let moved := e.moveFrom none t.frames
    match moved.stopped with
    | some cause => ⟨⟨moved.value⟩, moved.changed, some cause⟩
    | none =>
      let r := editAll e.editTypes moved.value
      ⟨⟨r.value⟩, moved.changed || r.changed, r.stopped⟩

end Edit

/-- The delta of a frame at `offset` behind the last frame of `t`. -/
def Table.deltaOf (t : Table) (offset : Nat) : Except Misplaced Nat :=
  match t.offsets.getLast? with
  | none => .ok offset
  | some last => if last < offset then .ok (offset - last - 1) else .error (.frameNotLast offset last)

/-- `t` with a full frame at `offset`, which has to come after its last frame. -/
def Table.addFull (t : Table) (offset : Nat) (locals stack : List VerificationType) :
    Except Misplaced Table :=
  match t.deltaOf offset with
  | .error cause => .error cause
  | .ok delta =>
    if delta < 65536 then .ok ⟨t.frames ++ [.full (UInt16.ofNat delta) locals stack]⟩
    else .error (.deltaTooLarge delta)

end ClassCatalog.StackMap
