import ClassCatalog.Client

/-! Actions: operations that change a state, leave events behind and may fail.

A failed action has still changed the state and left its events; what it undoes it undoes
itself. An action on a part of a state becomes one on the whole by `within`. -/
namespace ClassCatalog

/-- A state and what has happened so far. -/
structure Scene (σ : Type) where
  state : σ
  journal : Journal

abbrev Action (σ : Type) : Type → Type := ExceptT ClassError (StateM (Scene σ))

namespace Action
variable {σ τ α : Type}

/-- The outcome from a scene and the scene after it. -/
def start (a : Action σ α) (s : Scene σ) : Except ClassError α × Scene σ := a.run s

def ofFunction (f : Scene σ → Except ClassError α × Scene σ) : Action σ α := ExceptT.mk f

def state : Action σ σ := ofFunction fun s => (.ok s.state, s)

def put (x : σ) : Action σ Unit := ofFunction fun s => (.ok (), { s with state := x })

def update (f : σ → σ) : Action σ Unit := ofFunction fun s => (.ok (), { s with state := f s.state })

def report (e : Event) : Action σ Unit :=
  ofFunction fun s => (.ok (), { s with journal := s.journal ++ [e] })

def fail (e : ClassError) : Action σ α := ofFunction fun s => (.error e, s)

def ofExcept (r : Except ClassError α) : Action σ α := ofFunction fun s => (r, s)

/-- The outcome as a value. -/
def attempt (a : Action σ α) : Action σ (Except ClassError α) :=
  ofFunction fun s =>
    let (r, s) := a.start s
    (.ok r, s)

/-- An action on the part of the state that `part` reads and `replace` writes. -/
def within (part : σ → τ) (replace : σ → τ → σ) (a : Action τ α) : Action σ α :=
  ofFunction fun s =>
    let (r, t) := a.start ⟨part s.state, s.journal⟩
    (r, ⟨replace s.state t.state, t.journal⟩)

/-- Asks the client, with all that has happened so far and the question itself in its journal. -/
def ask (e : Event) (question : Journal → Except ClientFailure α) : Action σ (Except ClassError α) :=
  ofFunction fun s =>
    let told := s.journal ++ [e]
    (.ok ((question told).mapError ClientFailure.toError), { s with journal := told })

end Action
end ClassCatalog
