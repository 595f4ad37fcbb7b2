import Mathlib.Order.Defs.Unbundled
import ClassCatalog.Action

/-! Reasoning about actions.

`start_bind` opens a composed action, `of_start_bind` takes one apart that has been run. What
an action does to the state whether it fails or not is a relation of the states before and
after (`Keeps`), or of the scenes if the journal matters as well (`Leads`); one that is reflexive
and transitive is kept by a composition if it is kept by the parts. These are not the only
properties that a composition has from its parts; what is common to them is in `Composes`.
What an action lets the outside see is a relation of scenes as well (`Tells`).
Two actions that cannot be told apart from related scenes mirror each other (`Mirrors`). An action that answers the
same whatever is in the journal is `Heedless`. Where the states or the answers differ in a way that can be told, one
action is what another `Maps` or `Carries` to. -/
namespace ClassCatalog.Action
variable {σ τ α β : Type} {a : Action σ α} {f : α → Action σ β} {s t : Scene σ}

@[simp] theorem start_pure (x : α) (s : Scene σ) : (pure x : Action σ α).start s = (.ok x, s) := rfl

theorem start_bind (a : Action σ α) (f : α → Action σ β) (s : Scene σ) :
    (a >>= f).start s = match a.start s with
      | (.ok x, t) => (f x).start t
      | (.error e, t) => (.error e, t) := by
  show (ExceptT.bind a f) s = _
  unfold ExceptT.bind ExceptT.mk
  show (ExceptT.bindCont f (a s).1) (a s).2 = _
  unfold start ExceptT.run
  cases a s with
  | mk r t => cases r <;> rfl

/-- Answering with what a function makes of an answer. -/
theorem start_bind_pure (a : Action σ α) (g : α → β) (s : Scene σ) :
    (a >>= fun x => pure (g x)).start s = ((a.start s).1.map g, (a.start s).2) := by
  rw [start_bind]
  rcases a.start s with ⟨_ | _, _⟩ <;> rfl

@[simp] theorem start_state (s : Scene σ) : (state : Action σ σ).start s = (.ok s.state, s) := rfl

theorem start_state_bind (f : σ → Action σ β) (s : Scene σ) : (state >>= f).start s = (f s.state).start s := rfl

@[simp] theorem start_put (x : σ) (s : Scene σ) :
    (put x).start s = (.ok (), { s with state := x }) := rfl

@[simp] theorem start_update (g : σ → σ) (s : Scene σ) :
    (update g).start s = (.ok (), { s with state := g s.state }) := rfl

@[simp] theorem start_report (e : Event) (s : Scene σ) :
    (report e).start s = (.ok (), { s with journal := s.journal ++ [e] }) := rfl

@[simp] theorem start_fail (e : ClassError) (s : Scene σ) :
    (fail e : Action σ α).start s = (.error e, s) := rfl

@[simp] theorem start_ofExcept (r : Except ClassError α) (s : Scene σ) :
    (ofExcept r : Action σ α).start s = (r, s) := rfl

@[simp] theorem start_ask (e : Event) (question : Journal → Except ClientFailure α) (s : Scene σ) :
    (ask e question : Action σ _).start s =
      (.ok ((question (s.journal ++ [e])).mapError ClientFailure.toError),
        { s with journal := s.journal ++ [e] }) := rfl

@[simp] theorem start_attempt (a : Action σ α) (s : Scene σ) :
    (attempt a).start s = (.ok (a.start s).1, (a.start s).2) := rfl

@[simp] theorem start_within (part : σ → τ) (replace : σ → τ → σ) (a : Action τ α) (s : Scene σ) :
    (within part replace a).start s =
      ((a.start ⟨part s.state, s.journal⟩).1,
        ⟨replace s.state (a.start ⟨part s.state, s.journal⟩).2.state,
          (a.start ⟨part s.state, s.journal⟩).2.journal⟩) := rfl

/-- Changes the state and answers something besides. -/
def exchange (g : σ → α × σ) : Action σ α := do
  let (x, y) := g (← state)
  put y
  return x

@[simp] theorem start_exchange (g : σ → α × σ) (s : Scene σ) :
    (exchange g).start s = (.ok (g s.state).1, { s with state := (g s.state).2 }) := rfl

theorem ext {b : Action σ α} (h : ∀ s, a.start s = b.start s) : a = b := funext h

/-- The outcome of a composition is that of its second part, or the failure of its first. -/
theorem of_start_bind {r : Except ClassError β} (h : (a >>= f).start s = (r, t)) :
    (∃ e, a.start s = (.error e, t) ∧ r = .error e) ∨
      ∃ x u, a.start s = (.ok x, u) ∧ (f x).start u = (r, t) := by
  rw [start_bind] at h
  cases ha : a.start s with
  | mk q u =>
    rw [ha] at h
    cases q with
    | ok x => exact .inr ⟨x, u, rfl, h⟩
    | error e =>
      cases h
      exact .inl ⟨e, rfl, rfl⟩

theorem of_start_bind_ok {y : β} (h : (a >>= f).start s = (.ok y, t)) :
    ∃ x u, a.start s = (.ok x, u) ∧ (f x).start u = (.ok y, t) := by
  rcases of_start_bind h with ⟨e, _, he⟩ | h
  · cases he
  · exact h

/-! ### What compositions have from their parts -/

/-- A property of actions that a composition has if its parts have it. -/
structure Composes (P : ⦃α : Type⦄ → Action σ α → Prop) : Prop where
  pure : ∀ {α : Type} (x : α), P (Pure.pure x : Action σ α)
  fail : ∀ {α : Type} (e : ClassError), P (Action.fail e : Action σ α)
  bind : ∀ {α β : Type} {a : Action σ α} {f : α → Action σ β}, P a → (∀ x, P (f x)) → P (a >>= f)
  attempt : ∀ {α : Type} {a : Action σ α}, P a → P (Action.attempt a)

theorem Composes.ofExcept {P : ⦃α : Type⦄ → Action σ α → Prop} (h : Composes P) (r : Except ClassError α) :
    P (Action.ofExcept r : Action σ α) := by
  cases r with
  | ok x => exact h.pure x
  | error e => exact h.fail e

/-! ### What an action leads to -/

/-- The scenes before and after an action are related, whether it fails or not. -/
def Leads (R : Scene σ → Scene σ → Prop) (a : Action σ α) : Prop := ∀ s, R s (a.start s).2

theorem composes_leads (R : Scene σ → Scene σ → Prop) [IsPreorder (Scene σ) R] :
    Composes fun _ (a : Action σ _) => Leads R a where
  pure _ := refl_of R
  fail _ := refl_of R
  attempt h := h
  bind := by
    intro α β a f ha hf s
    rw [start_bind]
    have hfirst := ha s
    cases h : a.start s with
    | mk r t =>
      rw [h] at hfirst
      cases r with
      | ok x => exact trans_of R hfirst (hf x t)
      | error e => exact hfirst

/-! ### What an action tells -/

/-- From one scene to the other nothing has been told but what `P` says of. -/
def Tells (P : Event → Prop) (s t : Scene σ) : Prop := ∃ told, t.journal = s.journal ++ told ∧ ∀ e ∈ told, P e

namespace Tells
variable {P Q : Event → Prop}

theorem of_journal (h : t.journal = s.journal) : Tells P s t := ⟨[], by rw [h, List.append_nil], nofun⟩

theorem of_event {e : Event} (he : P e) (h : t.journal = s.journal ++ [e]) : Tells P s t :=
  ⟨[e], h, List.forall_mem_singleton.mpr he⟩

instance : IsPreorder (Scene σ) (Tells P) where
  refl _ := .of_journal rfl
  trans := by
    rintro s t u ⟨first, ht, hfirst⟩ ⟨second, hu, hsecond⟩
    exact ⟨first ++ second, by rw [hu, ht, List.append_assoc], List.forall_mem_append.mpr ⟨hfirst, hsecond⟩⟩

theorem mono (hPQ : ∀ e, P e → Q e) (h : Tells P s t) : Tells Q s t := by
  obtain ⟨told, ht, htold⟩ := h
  exact ⟨told, ht, fun e he => hPQ e (htold e he)⟩

end Tells

theorem leads_within {P : Event → Prop} {a : Action τ α} (h : Leads (Tells P) a) (part : σ → τ)
    (replace : σ → τ → σ) : Leads (Tells P) (within part replace a) :=
  fun s => h ⟨part s.state, s.journal⟩

/-! ### What an action keeps -/

/-- The states before and after an action are related, whether it fails or not. -/
def Keeps (R : σ → σ → Prop) (a : Action σ α) : Prop := ∀ s, R s.state (a.start s).2.state

namespace Keeps
variable {R : σ → σ → Prop}

theorem of_start (h : Keeps R a) {r : Except ClassError α} (hs : a.start s = (r, t)) :
    R s.state t.state := by
  have := h s
  rw [hs] at this
  exact this

theorem mono {S : σ → σ → Prop} (h : Keeps R a) (hRS : ∀ x y, R x y → S x y) : Keeps S a :=
  fun s => hRS _ _ (h s)

theorem update {g : σ → σ} (h : ∀ x, R x (g x)) : Keeps R (Action.update g) := fun s => h s.state

variable [IsPreorder σ R]

theorem pure (x : α) : Keeps R (Pure.pure x : Action σ α) := fun s => refl_of R s.state

theorem state : Keeps R (Action.state : Action σ σ) := fun s => refl_of R s.state

theorem report (e : Event) : Keeps R (Action.report e : Action σ Unit) := fun s => refl_of R s.state

theorem fail (e : ClassError) : Keeps R (Action.fail e : Action σ α) := fun s => refl_of R s.state

theorem ofExcept (r : Except ClassError α) : Keeps R (Action.ofExcept r : Action σ α) :=
  fun s => refl_of R s.state

theorem ask (e : Event) (question : Journal → Except ClientFailure α) :
    Keeps R (Action.ask e question : Action σ (Except ClassError α)) := fun s => refl_of R s.state

/-- What is kept of the states is what the scenes lead to, with no regard to the journal. -/
theorem composes (R : σ → σ → Prop) [IsPreorder σ R] : Composes fun _ (a : Action σ _) => Keeps R a :=
  have : IsPreorder (Scene σ) fun s t => R s.state t.state := {
    refl := fun s => refl_of R s.state
    trans := fun _ _ _ => trans_of R }
  composes_leads fun s t => R s.state t.state

theorem bind (ha : Keeps R a) (hf : ∀ x, Keeps R (f x)) : Keeps R (a >>= f) := (composes R).bind ha hf

omit [IsPreorder σ R] in
/-- Reading the state first: what follows may depend on the state it starts from. -/
theorem state_bind {f : σ → Action σ β} (h : ∀ s : Scene σ, R s.state ((f s.state).start s).2.state) :
    Keeps R (Action.state >>= f) := h

end Keeps

/-- The part that `part` reads is the same. -/
def Same (part : σ → τ) (x y : σ) : Prop := part y = part x

instance (part : σ → τ) : IsPreorder σ (Same part) where
  refl _ := rfl
  trans _ _ _ h h' := h'.trans h

/-- What holds of the one holds of the other. -/
def Preserves (P : σ → Prop) (x y : σ) : Prop := P x → P y

instance (P : σ → Prop) : IsPreorder σ (Preserves P) where
  refl _ h := h
  trans _ _ _ h h' := h' ∘ h

/-! ### Actions from related scenes -/

/-- From related scenes the two actions answer the same, and they leave related scenes. -/
def Mirrors (R : Scene σ → Scene σ → Prop) (a b : Action σ α) : Prop :=
  ∀ ⦃s t⦄, R s t → (b.start t).1 = (a.start s).1 ∧ R (a.start s).2 (b.start t).2

theorem mirrors_bind {R : Scene σ → Scene σ → Prop} {b : Action σ α} {f' : α → Action σ β} (h : Mirrors R a b)
    (hf : ∀ x, Mirrors R (f x) (f' x)) : Mirrors R (a >>= f) (b >>= f') := by
  intro s t hst
  obtain ⟨hanswer, hscene⟩ := h hst
  rw [start_bind, start_bind]
  generalize a.start s = first at hanswer hscene ⊢
  generalize b.start t = second at hanswer hscene ⊢
  obtain ⟨r, s⟩ := first
  obtain ⟨q, t⟩ := second
  cases hanswer
  cases r with
  | ok x => exact hf x hscene
  | error e => exact ⟨rfl, hscene⟩

theorem mirrors_attempt {R : Scene σ → Scene σ → Prop} {b : Action σ α} (h : Mirrors R a b) :
    Mirrors R (attempt a) (attempt b) :=
  fun _ _ hst => ⟨congrArg Except.ok (h hst).1, (h hst).2⟩

theorem composes_mirrors (R : Scene σ → Scene σ → Prop) : Composes fun _ (a : Action σ _) => Mirrors R a a where
  pure _ _ _ h := ⟨rfl, h⟩
  fail _ _ _ h := ⟨rfl, h⟩
  bind := mirrors_bind
  attempt := mirrors_attempt

/-- An action on a part mirrors another on the whole if it does on the part. -/
theorem mirrors_within {R : Scene σ → Scene σ → Prop} {S : Scene τ → Scene τ → Prop} {a b : Action τ α}
    {part : σ → τ} {replace : σ → τ → σ} (h : Mirrors S a b)
    (hpart : ∀ s t, R s t → S ⟨part s.state, s.journal⟩ ⟨part t.state, t.journal⟩)
    (hreplace : ∀ s t u v, R s t → S u v →
      R ⟨replace s.state u.state, u.journal⟩ ⟨replace t.state v.state, v.journal⟩) :
    Mirrors R (within part replace a) (within part replace b) := by
  intro s t hst
  obtain ⟨hanswer, hscene⟩ := h (hpart s t hst)
  exact ⟨hanswer, hreplace s t _ _ hst hscene⟩

/-! ### Actions that do not look back -/

/-- What has happened before makes no difference to the answer or to the state afterwards. -/
def Heedless (a : Action σ α) : Prop :=
  ∀ x told told', (a.start ⟨x, told⟩).1 = (a.start ⟨x, told'⟩).1 ∧
    (a.start ⟨x, told⟩).2.state = (a.start ⟨x, told'⟩).2.state

theorem heedless_iff : Heedless a ↔ Mirrors (fun s t => s.state = t.state) a a := by
  constructor
  · rintro h ⟨x, told⟩ ⟨y, told'⟩ rfl
    exact h x told' told |>.imp_right Eq.symm
  · intro h x told told'
    obtain ⟨hanswer, hstate⟩ := h (s := ⟨x, told'⟩) (t := ⟨x, told⟩) rfl
    exact ⟨hanswer, hstate.symm⟩

namespace Heedless

theorem pure (x : α) : Heedless (Pure.pure x : Action σ α) := fun _ _ _ => ⟨rfl, rfl⟩

theorem state : Heedless (Action.state : Action σ σ) := fun _ _ _ => ⟨rfl, rfl⟩

theorem update (g : σ → σ) : Heedless (Action.update g) := fun _ _ _ => ⟨rfl, rfl⟩

theorem report (e : Event) : Heedless (Action.report e : Action σ Unit) := fun _ _ _ => ⟨rfl, rfl⟩

theorem bind (ha : Heedless a) (hf : ∀ x, Heedless (f x)) : Heedless (a >>= f) :=
  heedless_iff.mpr (mirrors_bind (heedless_iff.mp ha) fun x => heedless_iff.mp (hf x))

end Heedless

/-! ### Actions that differ in their answers -/

/-- The second action does what the first does, and answers `g` of what it answers. -/
def Maps (g : α → β) (a : Action σ α) (b : Action σ β) : Prop :=
  ∀ s, b.start s = ((a.start s).1.map g, (a.start s).2)

namespace Maps
variable {α' β' : Type} {g : α → β} {g' : α' → β'} {b : Action σ β} {f' : β → Action σ β'}

theorem refl (a : Action σ α) : Maps id a a := fun s => by rw [Except.map_id]; rfl

theorem pure (x : α) : Maps (σ := σ) g (Pure.pure x) (Pure.pure (g x)) := fun _ => rfl

theorem fail (e : ClassError) : Maps (σ := σ) g (Action.fail e) (Action.fail e) := fun _ => rfl

theorem attempt (h : Maps g a b) : Maps (Except.map g) (Action.attempt a) (Action.attempt b) := by
  intro s
  rw [start_attempt, start_attempt, h s]
  rfl

theorem bind {f : α → Action σ α'} (h : Maps g a b) (hf : ∀ x, Maps g' (f x) (f' (g x))) :
    Maps g' (a >>= f) (b >>= f') := by
  intro s
  rw [start_bind, start_bind, h s]
  rcases a.start s with ⟨_ | x, t⟩
  · rfl
  · exact hf x t

/-- An answer of the second action comes from one of the first. -/
theorem of_start_ok {y : β} (h : Maps g a b) (hb : b.start s = (.ok y, t)) :
    ∃ x, a.start s = (.ok x, t) ∧ g x = y := by
  rw [h s] at hb
  rcases ha : a.start s with ⟨_ | x, u⟩
  · rw [ha] at hb
    cases hb
  · rw [ha] at hb
    cases hb
    exact ⟨x, rfl, rfl⟩

theorem keeps {R : σ → σ → Prop} (h : Maps g a b) (hb : Keeps R b) : Keeps R a := by
  intro s
  have := hb s
  rwa [h s] at this

end Maps

/-! ### Actions from states carried over -/

/-- From the state that `F` makes of another the second action does what the first does from that, as `F` makes it,
and answers `g` of what it answers. -/
def Carries (F : σ → σ) (g : α → β) (a : Action σ α) (b : Action σ β) : Prop :=
  ∀ x told, b.start ⟨F x, told⟩ =
    ((a.start ⟨x, told⟩).1.map g, ⟨F (a.start ⟨x, told⟩).2.state, (a.start ⟨x, told⟩).2.journal⟩)

namespace Carries
variable {α' β' : Type} {F : σ → σ} {G : τ → τ} {g : α → β} {g' : α' → β'} {b : Action σ β} {f' : β → Action σ β'}

theorem refl (a : Action σ α) : Carries id id a a := fun x told => by rw [Except.map_id]; rfl

theorem pure (x : α) : Carries F g (Pure.pure x) (Pure.pure (g x)) := fun _ _ => rfl

theorem fail (e : ClassError) : Carries F g (Action.fail e) (Action.fail e) := fun _ _ => rfl

theorem ofExcept (r : Except ClassError α) : Carries F id (Action.ofExcept r) (Action.ofExcept r) :=
  fun _ _ => by rw [Except.map_id]; rfl

theorem report (e : Event) : Carries F id (Action.report e) (Action.report e) := fun _ _ => rfl

theorem ask (e : Event) (question : Journal → Except ClientFailure α) :
    Carries F id (Action.ask e question) (Action.ask e question) := fun _ _ => rfl

theorem put (x : σ) : Carries F id (Action.put x) (Action.put (F x)) := fun _ _ => rfl

theorem update {f f' : σ → σ} (h : ∀ x, f' (F x) = F (f x)) : Carries F id (Action.update f) (Action.update f') :=
  fun x told => by rw [start_update, h]; rfl

theorem exchange {f : σ → α × σ} {f' : σ → β × σ} (h : ∀ x, f' (F x) = (g (f x).1, F (f x).2)) :
    Carries F g (Action.exchange f) (Action.exchange f') := fun x told => by rw [start_exchange, h]; rfl

theorem attempt (h : Carries F g a b) : Carries F (Except.map g) (Action.attempt a) (Action.attempt b) := by
  intro x told
  rw [start_attempt, start_attempt, h x told]
  rfl

theorem bind {f : α → Action σ α'} (h : Carries F g a b) (hf : ∀ x, Carries F g' (f x) (f' (g x))) :
    Carries F g' (a >>= f) (b >>= f') := by
  intro x told
  rw [start_bind, start_bind, h x told]
  rcases a.start ⟨x, told⟩ with ⟨_ | y, t⟩
  · rfl
  · exact hf y t.state t.journal

/-- Reading the state first: what follows goes by the state that it finds. -/
theorem read {f : σ → Action σ α'} {f' : σ → Action σ β'} (h : ∀ x, Carries F g' (f x) (f' (F x))) :
    Carries F g' (Action.state >>= f) (Action.state >>= f') := fun x told => h x x told

theorem within {a : Action τ α} {b : Action τ β} {part : σ → τ} {replace : σ → τ → σ} {part' : σ → τ}
    {replace' : σ → τ → σ} (h : Carries G g a b) (hpart : ∀ x, part' (F x) = G (part x))
    (hreplace : ∀ x y, replace' (F x) (G y) = F (replace x y)) :
    Carries F g (Action.within part replace a) (Action.within part' replace' b) := by
  intro x told
  rw [start_within, start_within]
  dsimp only
  rw [hpart, h, hreplace]

end Carries
end ClassCatalog.Action
