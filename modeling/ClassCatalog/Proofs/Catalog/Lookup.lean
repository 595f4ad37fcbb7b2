import ClassCatalog.Proofs.Catalog.Fitting
import ClassCatalog.Proofs.Catalog.Loading
import ClassCatalog.Proofs.Catalog.Enroll

/-! What a lookup does.

Either the entry that fits is a class, or one is loaded and registered in the place of the
placeholder that fits, or nothing is registered: `lookupCanonical_cases` and
`loadAndEnroll_cases`. A lookup answers a class that is registered and that the loader
reaches (`lookupCanonical_answer`). -/
namespace ClassCatalog.Catalog
open ClassCatalog.Action
variable {o : Outside} {name : String} {loader : LoaderId} {placeholder : Option Nat} {id : ClassId}
  {e : Entry} {placeholders : Bool} {s t : Scene Catalog} {c d : Catalog}
  {r : Except ClassError (Option ClassId)}

/-! ### After finding an entry -/

theorem Fits.index (h : Fits c name loader placeholders e d) :
    d.index.groups = c.index.groups ∧ d.index.loaders = c.index.loaders := by
  cases h with
  | seen _ => exact ⟨rfl, rfl⟩
  | below _ _ =>
    cases e <;> exact ⟨rfl, rfl⟩
  | defined _ _ hquiet _ _ _ => exact ⟨hquiet.groups, hquiet.loaders⟩

theorem narrow_steady (c : Catalog) (loader : LoaderId) (e : Entry) :
    c.population.Steady (c.narrow loader e).population := by
  cases e with
  | placeholder p => exact .modifyPlaceholder (fun _ => rfl) fun x => le_refl x.notes
  | loaded _ => exact .refl _
  | special _ => exact .refl _

theorem Fits.steady (h : Fits c name loader placeholders e d) : c.population.Steady d.population := by
  cases h with
  | seen _ => exact .refl _
  | below _ _ => exact narrow_steady c loader e
  | defined _ _ hquiet _ _ _ =>
    rw [hquiet.population]
    exact .refl _

theorem Fits.defining (h : Fits c name loader placeholders e d) (key : ClassKey) (l : LoaderId)
    (hl : c.index.defining.get? key = some l) : d.index.defining.get? key = some l := by
  cases h with
  | seen _ => exact hl
  | below _ _ =>
    cases e <;> exact hl
  | defined _ _ hquiet _ _ _ => exact hquiet.defining key l hl

theorem Fits.group (h : Fits c name loader placeholders e d) (other : String) : d.group other = c.group other := by
  simp only [Catalog.group, h.index.1]

theorem Fits.classes (h : Fits c name loader placeholders e d) :
    d.population.classes = c.population.classes := by
  cases h with
  | seen _ => rfl
  | below _ _ => cases e <;> rfl
  | defined _ _ hquiet _ _ _ => rw [hquiet.population]

/-- Only a placeholder is moved. -/
theorem Fits.quiet (h : Fits c name loader placeholders e d) (he : e.isPlaceholder = false) : Quiet c d := by
  cases h with
  | seen _ => exact .refl _
  | below _ h =>
    obtain ⟨id, _, rfl, _⟩ := isBelow_eq_true_iff.mp (List.find?_some h)
    cases he
  | defined _ _ hquiet _ _ _ => exact hquiet

/-- Looking for an entry moves a placeholder at most. -/
theorem findFitting_steady {found : Except ClassError (Option Entry)}
    (h : (findFitting o name loader placeholders).start s = (found, t)) :
    s.state.population.Steady t.state.population ∧ ∀ other, t.state.group other = s.state.group other := by
  rcases findFitting_cases h with ⟨_, _, hfits⟩ | ⟨_, hquiet⟩
  · exact ⟨hfits.steady, hfits.group⟩
  · refine ⟨?_, hquiet.group⟩
    rw [hquiet.population]
    exact .refl _

/-! ### Loading and registering -/

theorem loadAndEnroll_cases (h : (loadAndEnroll o name loader placeholder).start s = (r, t)) :
    ((∀ id, r ≠ .ok (some id)) ∧ Quiet s.state t.state) ∨
      ∃ u k l, Quiet s.state u ∧ Loaded name l k ∧
        (l ∈ u.index.loaders.ancestry loader ∨
          (u.index.defining.get? (name, loader) = some l ∧ l ≠ Loader.none)) ∧
        r = .ok (some (u.enroll name placeholder k).1) ∧ t.state = (u.enroll name placeholder k).2 := by
  unfold loadAndEnroll at h
  rw [start_state_bind] at h
  split at h
  · cases h
    exact .inl ⟨nofun, .refl _⟩
  · rw [start_bind, start_attempt] at h
    cases hload : (load o name loader).start s with
    | mk found u =>
      have hquiet := (load_quiet o name loader).of_start hload
      rw [hload] at h
      cases found with
      | error e =>
        have hnoted := (noteUnusable_quiet name loader e).bind fun _ => Keeps.fail (α := Option ClassId) e
        have hne : ∀ id, r ≠ .ok (some id) := by
          rintro id rfl
          obtain ⟨_, _, _, h⟩ := of_start_bind_ok h
          cases h
        exact .inl ⟨hne, hquiet.trans (hnoted.of_start h)⟩
      | ok found =>
        cases found with
        | none =>
          cases h
          exact .inl ⟨nofun, hquiet⟩
        | some k =>
          obtain ⟨l, hk, hl⟩ := load_found hload
          dsimp only at h
          rw [start_state_bind] at h
          cases h
          exact .inr ⟨u.state, k, l, hquiet, hk, hl, rfl, rfl⟩

theorem lookupCanonical_cases (h : (lookupCanonical o name loader).start s = (r, t)) :
    (∃ id, (findFitting o name loader true).start s = (.ok (some (.loaded id)), t) ∧ r = .ok (some id)) ∨
      ((∀ id, r ≠ .ok (some id)) ∧ Quiet s.state t.state) ∨
      ∃ placeholder u, (findFitting o name loader true).start s = (.ok (placeholder.map .placeholder), u) ∧
        (loadAndEnroll o name loader placeholder).start u = (r, t) := by
  unfold lookupCanonical at h
  rw [start_bind] at h
  cases hfound : (findFitting o name loader true).start s with
  | mk found u =>
    rw [hfound] at h
    cases found with
    | error e =>
      cases h
      rcases findFitting_cases hfound with ⟨_, he, _⟩ | ⟨_, hquiet⟩
      · cases he
      · exact .inr (.inl ⟨nofun, hquiet⟩)
    | ok found =>
      cases found with
      | none => exact .inr (.inr ⟨none, u, rfl, h⟩)
      | some e =>
        cases e with
        | loaded id =>
          cases h
          exact .inl ⟨id, rfl, rfl⟩
        | placeholder p => exact .inr (.inr ⟨some p, u, rfl, h⟩)
        | special n =>
          cases h
          exact .inr (.inl ⟨nofun, (fits_of_findFitting hfound).quiet rfl⟩)

/-! ### The answer -/

theorem Seated.reaches {l : LoaderId} (h : Seated c name placeholder id d)
    (hloader : c.loaderOf (.loaded id) = some l)
    (hl : l ∈ c.index.loaders.ancestry loader ∨
      (c.index.defining.get? (name, loader) = some l ∧ l ≠ Loader.none)) :
    d.Reaches name loader (.loaded id) := by
  have hloader := h.population.loaderOf hloader
  rcases hl with hl | ⟨hknown, hl⟩
  · refine .inl (sees_eq_true_iff.mpr ⟨l, hloader, ?_⟩)
    rw [h.loaders]
    exact hl
  · refine .inr ⟨l, ?_, hl, hloader⟩
    rw [h.defining]
    exact hknown

/-- A class that has been loaded for a loader is registered where the loader reaches it. -/
theorem enroll_reaches {k : LoadedClass} {l : LoaderId} (hk : Fresh name l k)
    (hl : l ∈ c.index.loaders.ancestry loader ∨
      (c.index.defining.get? (name, loader) = some l ∧ l ≠ Loader.none))
    (hp : ∀ p, placeholder = some p → Entry.placeholder p ∈ c.group name) :
    Entry.loaded (c.enroll name placeholder k).1 ∈ (c.enroll name placeholder k).2.group name ∧
      (c.enroll name placeholder k).2.Reaches name loader (.loaded (c.enroll name placeholder k).1) := by
  obtain ⟨c₀, hlinked, hseated, hloader, _⟩ := enroll_seated c k hp
  rw [hk.loader_eq] at hloader
  rw [← hlinked.index] at hl
  exact ⟨hseated.mem, hseated.reaches hloader hl⟩

/-- The placeholder to take the place of is registered. -/
theorem mem_of_findFitting {u : Scene Catalog}
    (h : (findFitting o name loader true).start s = (.ok (placeholder.map .placeholder), u)) (p : Nat)
    (hp : placeholder = some p) : Entry.placeholder p ∈ u.state.group name := by
  subst hp
  have hfits := fits_of_findFitting h
  rw [hfits.group]
  exact hfits.mem

/-- A lookup answers a registered class that the loader reaches. -/
theorem lookupCanonical_answer (h : (lookupCanonical o name loader).start s = (.ok (some id), t)) :
    Entry.loaded id ∈ t.state.group name ∧ t.state.Reaches name loader (.loaded id) := by
  rcases lookupCanonical_cases h with ⟨id', hfound, hid⟩ | ⟨hne, _⟩ | ⟨placeholder, u, hfound, h⟩
  · cases hid
    have hfits := fits_of_findFitting hfound
    rw [hfits.group]
    exact ⟨hfits.mem, hfits.reaches⟩
  · exact absurd rfl (hne id)
  · rcases loadAndEnroll_cases h with ⟨hne, _⟩ | ⟨v, k, l, hquiet, hk, hl, hid, ht⟩
    · exact absurd rfl (hne id)
    · have hp : ∀ p, placeholder = some p → Entry.placeholder p ∈ v.group name := by
        intro p hp
        rw [hquiet.group]
        exact mem_of_findFitting hfound p hp
      cases hid
      rw [ht]
      exact enroll_reaches hk.fresh hl hp

end ClassCatalog.Catalog
