import Mathlib.Order.Basic
import ClassCatalog.Loaded.Population
import ClassCatalog.Proofs.Action

/-! What is noted on entries, and how a population grows.

From one state to the next the classes and placeholders of a population keep their names, and
what is noted on a class stays (`Extends`). Except where a placeholder hands its notes over,
what is noted on a placeholder stays as well (`Steady`). -/
namespace ClassCatalog

structure Notes where
  roots : Bool
  markers : Bool
  subclasses : List ClassId
deriving DecidableEq, Repr

namespace Notes

/-- All that is in the first is in the second. -/
instance : Preorder Notes where
  le n m := (n.roots = true → m.roots = true) ∧ (n.markers = true → m.markers = true) ∧
    n.subclasses ⊆ m.subclasses
  le_refl n := ⟨id, id, List.Subset.refl _⟩
  le_trans _ _ _ h h' := ⟨h'.1 ∘ h.1, h'.2.1 ∘ h.2.1, List.Subset.trans h.2.2 h'.2.2⟩

theorem le_def {n m : Notes} : n ≤ m ↔ (n.roots = true → m.roots = true) ∧
    (n.markers = true → m.markers = true) ∧ n.subclasses ⊆ m.subclasses := .rfl

instance (n m : Notes) : Decidable (n ≤ m) := decidable_of_iff _ le_def.symm

end Notes

def LoadedClass.notes (k : LoadedClass) : Notes := ⟨k.allRoots, k.allMarkers, k.subclasses⟩

def Placeholder.notes (p : Placeholder) : Notes := ⟨p.allRoots, p.allMarkers, p.subclasses⟩

namespace LoadedClass

theorem mem_addOnce {ids : List ClassId} {id other : ClassId} :
    other ∈ addOnce ids id ↔ other ∈ ids ∨ other = id := by
  unfold addOnce
  split
  · rename_i h
    rw [List.contains_iff_mem] at h
    exact ⟨.inl, fun h' => h'.elim (fun h' => h') fun e => e ▸ h⟩
  · simp

theorem mem_foldl_addOnce {ids more : List ClassId} {id : ClassId} :
    id ∈ more.foldl addOnce ids ↔ id ∈ ids ∨ id ∈ more := by
  induction more generalizing ids with
  | nil => simp
  | cons a rest ih =>
    rw [List.foldl_cons, ih, mem_addOnce, List.mem_cons, or_assoc]

theorem foldl_addOnce_nodup {ids : List ClassId} (h : ids.Nodup) (more : List ClassId) :
    (more.foldl addOnce ids).Nodup := by
  induction more generalizing ids with
  | nil => exact h
  | cons id rest ih => exact ih (addOnce_nodup h id)

/-- The same class later: it is still the same record at the same loader. -/
structure Grows (k k' : LoadedClass) : Prop where
  record : k'.record = k.record
  loader : k'.loader = k.loader
  notes : k.notes ≤ k'.notes

theorem Grows.name {k k' : LoadedClass} (h : Grows k k') : k'.name = k.name :=
  congrArg ClassFile.Record.name h.record

instance : IsPreorder LoadedClass Grows where
  refl _ := ⟨rfl, rfl, le_refl _⟩
  trans _ _ _ h h' :=
    ⟨h'.record.trans h.record, h'.loader.trans h.loader, le_trans h.notes h'.notes⟩

theorem grows_addSubclass (k : LoadedClass) (id : ClassId) : Grows k (k.addSubclass id) :=
  ⟨rfl, rfl, Notes.le_def.mpr ⟨fun h => h, fun h => h, fun _ h => mem_addOnce.mpr (.inl h)⟩⟩

theorem grows_adopt (k : LoadedClass) (roots markers : Bool) (ids : List ClassId) :
    Grows k (k.adopt roots markers ids) := by
  refine ⟨rfl, rfl, Notes.le_def.mpr ⟨fun h => ?_, fun h => ?_, fun id h => mem_foldl_addOnce.mpr (.inl h)⟩⟩
  · exact Bool.or_eq_true_iff.mpr (.inl h)
  · exact Bool.or_eq_true_iff.mpr (.inl h)

/-- A class has all that it has taken over. -/
theorem notes_le_adopt (k : LoadedClass) (p : Placeholder) :
    p.notes ≤ (k.adopt p.allRoots p.allMarkers p.subclasses).notes := by
  refine Notes.le_def.mpr ⟨fun h => ?_, fun h => ?_, fun id h => mem_foldl_addOnce.mpr (.inr h)⟩
  · exact Bool.or_eq_true_iff.mpr (.inr h)
  · exact Bool.or_eq_true_iff.mpr (.inr h)

end LoadedClass

theorem Placeholder.notes_le_addSubclass (p : Placeholder) (id : ClassId) :
    p.notes ≤ (p.addSubclass id).notes :=
  Notes.le_def.mpr ⟨fun h => h, fun h => h, fun _ h => LoadedClass.mem_addOnce.mpr (.inl h)⟩

namespace Population

/-- What is noted on an entry; nothing is noted on special classes. -/
def notes? (p : Population) : Entry → Option Notes
  | .loaded id => (p.class? id).map LoadedClass.notes
  | .placeholder id => (p.placeholder? id).map Placeholder.notes
  | .special _ => none

/-! ### Parts after a change -/

theorem class?_modifyClass (p : Population) (id other : ClassId) (f : LoadedClass → LoadedClass) :
    (p.modifyClass id f).class? other = if id = other then (p.class? other).map f else p.class? other :=
  Array.getElem?_modify ..

theorem placeholder?_modifyPlaceholder (p : Population) (id other : Nat) (f : Placeholder → Placeholder) :
    (p.modifyPlaceholder id f).placeholder? other =
      if id = other then (p.placeholder? other).map f else p.placeholder? other :=
  Array.getElem?_modify ..

theorem getElem?_push_of_some {α : Type} {xs : Array α} {i : Nat} {a : α} (h : xs[i]? = some a) (x : α) :
    (xs.push x)[i]? = some a := by
  have hlt := (Array.getElem?_eq_some_iff.mp h).1
  rw [Array.getElem?_push, if_neg (Nat.ne_of_lt hlt), h]

/-! ### Growth -/

structure Extends (p q : Population) : Prop where
  classes : ∀ id k, p.class? id = some k → ∃ k', q.class? id = some k' ∧ k.Grows k'
  placeholders : ∀ id x, p.placeholder? id = some x → ∃ x', q.placeholder? id = some x' ∧ x'.name = x.name
  specials : ∀ (id : Nat) (n : String), p.specials[id]? = some n → q.specials[id]? = some n

structure Steady (p q : Population) : Prop extends Extends p q where
  noted : ∀ id x, p.placeholder? id = some x → ∃ x', q.placeholder? id = some x' ∧ x.notes ≤ x'.notes

variable {p q r : Population}

namespace Extends

theorem refl (p : Population) : Extends p p :=
  ⟨fun _ k h => ⟨k, h, refl_of _ k⟩, fun _ x h => ⟨x, h, rfl⟩, fun _ _ h => h⟩

theorem trans (h : Extends p q) (h' : Extends q r) : Extends p r := by
  refine ⟨fun id k hk => ?_, fun id x hx => ?_, fun id n hn => h'.specials id n (h.specials id n hn)⟩
  · obtain ⟨k', hk', hgrows⟩ := h.classes id k hk
    obtain ⟨k'', hk'', hgrows'⟩ := h'.classes id k' hk'
    exact ⟨k'', hk'', trans_of _ hgrows hgrows'⟩
  · obtain ⟨x', hx', hname⟩ := h.placeholders id x hx
    obtain ⟨x'', hx'', hname'⟩ := h'.placeholders id x' hx'
    exact ⟨x'', hx'', hname'.trans hname⟩

theorem nameOf (h : Extends p q) {e : Entry} {n : String} (he : p.nameOf e = some n) : q.nameOf e = some n := by
  cases e with
  | loaded id =>
    obtain ⟨k, hk, rfl⟩ := Option.map_eq_some_iff.mp he
    obtain ⟨k', hk', hgrows⟩ := h.classes id k hk
    exact Option.map_eq_some_iff.mpr ⟨k', hk', hgrows.name⟩
  | placeholder id =>
    obtain ⟨x, hx, rfl⟩ := Option.map_eq_some_iff.mp he
    obtain ⟨x', hx', hname⟩ := h.placeholders id x hx
    exact Option.map_eq_some_iff.mpr ⟨x', hx', hname⟩
  | special id => exact h.specials id n he

/-- A class stays at its loader. -/
theorem loaderOf (h : Extends p q) {id : ClassId} {l : LoaderId} (hl : p.loaderOf (.loaded id) = some l) :
    q.loaderOf (.loaded id) = some l := by
  obtain ⟨k, hk, rfl⟩ := Option.map_eq_some_iff.mp hl
  obtain ⟨k', hk', hgrows⟩ := h.classes id k hk
  exact Option.map_eq_some_iff.mpr ⟨k', hk', hgrows.loader⟩

theorem modifyPlaceholder {id : Nat} {f : Placeholder → Placeholder} (hname : ∀ x, (f x).name = x.name) :
    Extends p (p.modifyPlaceholder id f) := by
  refine ⟨fun _ k h => ⟨k, h, refl_of _ k⟩, fun other x hx => ?_, fun _ _ h => h⟩
  rw [placeholder?_modifyPlaceholder]
  split
  · exact ⟨f x, congrArg _ hx, hname x⟩
  · exact ⟨x, hx, rfl⟩

end Extends

namespace Steady

theorem refl (p : Population) : Steady p p := ⟨.refl p, fun _ x h => ⟨x, h, le_refl _⟩⟩

theorem trans (h : Steady p q) (h' : Steady q r) : Steady p r := by
  refine ⟨h.toExtends.trans h'.toExtends, fun id x hx => ?_⟩
  obtain ⟨x', hx', hle⟩ := h.noted id x hx
  obtain ⟨x'', hx'', hle'⟩ := h'.noted id x' hx'
  exact ⟨x'', hx'', le_trans hle hle'⟩

theorem modifyClass {id : ClassId} {f : LoadedClass → LoadedClass}
    (hf : ∀ k, p.class? id = some k → k.Grows (f k)) : Steady p (p.modifyClass id f) := by
  refine ⟨⟨fun other k hk => ?_, fun _ x h => ⟨x, h, rfl⟩, fun _ _ h => h⟩, fun _ x h => ⟨x, h, le_refl _⟩⟩
  rw [class?_modifyClass]
  split
  · rename_i e
    subst e
    exact ⟨f k, congrArg _ hk, hf k hk⟩
  · exact ⟨k, hk, refl_of _ k⟩

theorem modifyPlaceholder {id : Nat} {f : Placeholder → Placeholder} (hname : ∀ x, (f x).name = x.name)
    (hnotes : ∀ x, x.notes ≤ (f x).notes) : Steady p (p.modifyPlaceholder id f) := by
  refine ⟨.modifyPlaceholder hname, fun other x hx => ?_⟩
  rw [placeholder?_modifyPlaceholder]
  split
  · exact ⟨f x, congrArg _ hx, hnotes x⟩
  · exact ⟨x, hx, le_refl _⟩

theorem pushClass (p : Population) (k : LoadedClass) : Steady p { p with classes := p.classes.push k } :=
  ⟨⟨fun _ k' h => ⟨k', getElem?_push_of_some h k, refl_of _ k'⟩, fun _ x h => ⟨x, h, rfl⟩, fun _ _ h => h⟩,
    fun _ x h => ⟨x, h, le_refl _⟩⟩

theorem pushPlaceholder (p : Population) (x : Placeholder) :
    Steady p { p with placeholders := p.placeholders.push x } :=
  ⟨⟨fun _ k h => ⟨k, h, refl_of _ k⟩, fun _ y h => ⟨y, getElem?_push_of_some h x, rfl⟩, fun _ _ h => h⟩,
    fun _ y h => ⟨y, getElem?_push_of_some h x, le_refl _⟩⟩

theorem pushSpecial (p : Population) (n : String) : Steady p { p with specials := p.specials.push n } :=
  ⟨⟨fun _ k h => ⟨k, h, refl_of _ k⟩, fun _ x h => ⟨x, h, rfl⟩, fun _ _ h => getElem?_push_of_some h n⟩,
    fun _ x h => ⟨x, h, le_refl _⟩⟩

end Steady
end Population
end ClassCatalog
