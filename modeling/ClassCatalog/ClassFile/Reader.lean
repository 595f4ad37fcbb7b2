import ClassCatalog.Error
import ClassCatalog.Bytes

/-! Reading bytes in order.

A reader takes the input and a position and answers a value and the position after it,
or fails at a position. Readers are put together with `do`; `loop` runs one a given
number of times over a state. A reader never looks at the length of the input, only
whether it reaches far enough (`reach`), so more input cannot change what it answers. -/
namespace ClassCatalog.ClassFile

structure Failure where
  position : Nat
  fault : Fault
deriving DecidableEq, Repr

def Failure.inClass (name : String) (f : Failure) : ClassError := .format name f.position f.fault

def Reader (α : Type) : Type := Bytes → Nat → Except Failure (α × Nat)

namespace Reader
variable {α β σ : Type}

@[inline] def run (r : Reader α) (input : Bytes) (pos : Nat) : Except Failure (α × Nat) :=
  r input pos

@[inline] protected def pure (a : α) : Reader α := fun _ pos => .ok (a, pos)

@[inline] protected def bind (r : Reader α) (f : α → Reader β) : Reader β := fun input pos =>
  match r input pos with
  | .ok (a, pos) => f a input pos
  | .error e => .error e

@[inline] instance : Monad Reader where
  pure := Reader.pure
  bind := Reader.bind

/-- Fails where the reader stands. -/
def fail (fault : Fault) : Reader α := fun _ pos => .error ⟨pos, fault⟩

def position : Reader Nat := fun _ pos => .ok (pos, pos)

def moveTo (pos : Nat) : Reader Unit := fun _ _ => .ok ((), pos)

def ofExcept : Except Fault α → Reader α
  | .ok a => Reader.pure a
  | .error f => fail f

/-- Fails unless the input reaches to `stop`. -/
def reach (stop : Nat) (fault : Fault) : Reader Unit := fun input pos =>
  if stop ≤ input.size then .ok ((), pos) else .error ⟨pos, fault⟩

def u8 : Reader UInt8 := fun input pos =>
  match input[pos]? with
  | some b => .ok (b, pos + 1)
  | none => .error ⟨pos, .unexpectedEnd⟩

def u16 : Reader UInt16 := fun input pos =>
  match input.word? pos with
  | some w => .ok (w, pos + 2)
  | none => .error ⟨pos, .unexpectedEnd⟩

def u32 : Reader UInt32 := fun input pos =>
  match input.long? pos with
  | some n => .ok (n, pos + 4)
  | none => .error ⟨pos, .unexpectedEnd⟩

/-- The next `n` bytes. -/
def take (n : Nat) : Reader Bytes := fun input pos =>
  match input.slice? pos n with
  | some s => .ok (s, pos + n)
  | none => .error ⟨pos, .skipPastEnd n⟩

/-- Passes over the next `n` bytes. -/
def skip (n : Nat) : Reader Unit := fun input pos =>
  if pos + n ≤ input.size then .ok ((), pos + n) else .error ⟨pos, .skipPastEnd n⟩

/-- Fails unless `n` more bytes are there to be passed over. -/
def ahead (n : Nat) : Reader Unit := fun input pos =>
  if pos + n ≤ input.size then .ok ((), pos) else .error ⟨pos, .skipPastEnd n⟩

def loopFrom (step : σ → Reader σ) (input : Bytes) : Nat → σ → Nat → Except Failure (σ × Nat)
  | 0, s, pos => .ok (s, pos)
  | n + 1, s, pos =>
    match step s input pos with
    | .ok (s, pos) => loopFrom step input n s pos
    | .error e => .error e

/-- `step`, `n` times over. -/
def loop (n : Nat) (step : σ → Reader σ) (s : σ) : Reader σ := fun input pos =>
  loopFrom step input n s pos

theorem loop_succ (n : Nat) (step : σ → Reader σ) (s : σ) :
    loop (n + 1) step s = (step s).bind (loop n step) := by
  funext input pos
  rfl

end Reader
end ClassCatalog.ClassFile
