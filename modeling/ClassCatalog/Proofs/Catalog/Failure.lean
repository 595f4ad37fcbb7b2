import ClassCatalog.Proofs.Catalog.Lookup
import ClassCatalog.Proofs.Catalog.Run

/-! What a lookup without an answer leaves behind.

A lookup may fail at the client, in an archive, at the bytes or at the name in them, when it has already moved a
placeholder, filled caches and taken notes. `lookup_undisturbed` says that the entries cannot tell: only what
fits is looked for before a class is there to be registered, and that moves one placeholder at most. -/
namespace ClassCatalog.Catalog
open ClassCatalog.Action
variable {o : Outside} {name : String} {loader : LoaderId} {placeholders : Bool} {e : Entry}
  {s t : Scene Catalog} {c d d' : Catalog} {r : Except ClassError (Option ClassId)}

/-- The placeholder `p` of `name`, which was below `loader` in `c`, is at `loader` in `d`; nothing else has become
of it, and nothing at all of the other placeholders. -/
structure Narrows (c : Catalog) (name : String) (loader : LoaderId) (p : Nat) (d : Catalog) : Prop where
  mem : Entry.placeholder p ∈ c.group name
  moved : ∃ x, c.population.placeholder? p = some x ∧ c.index.loaders.isAncestor loader x.loader = true ∧
    d.population.placeholder? p = some { x with loader := loader }
  rest : ∀ q, q ≠ p → d.population.placeholder? q = c.population.placeholder? q

/-- From `c` to `d` no entry has come, gone or changed, except that a placeholder of `name` may have been narrowed
to `loader`. -/
structure Undisturbed (c : Catalog) (name : String) (loader : LoaderId) (d : Catalog) : Prop where
  groups : d.index.groups = c.index.groups
  loaders : d.index.loaders = c.index.loaders
  classes : d.population.classes = c.population.classes
  specials : d.population.specials = c.population.specials
  placeholders : d.population.placeholders = c.population.placeholders ∨ ∃ p, Narrows c name loader p d

theorem Quiet.undisturbed (h : Quiet c d) (name : String) (loader : LoaderId) : Undisturbed c name loader d :=
  ⟨h.groups, h.loaders, by rw [h.population], by rw [h.population], .inl (by rw [h.population])⟩

theorem Undisturbed.quiet (h : Undisturbed c name loader d) (hquiet : Quiet d d') :
    Undisturbed c name loader d' where
  groups := hquiet.groups.trans h.groups
  loaders := hquiet.loaders.trans h.loaders
  classes := by rw [hquiet.population, h.classes]
  specials := by rw [hquiet.population, h.specials]
  placeholders := by
    rw [hquiet.population]
    refine h.placeholders.imp_right fun ⟨p, hmem, hmoved, hrest⟩ => ⟨p, hmem, ?_, ?_⟩
    · rwa [hquiet.population]
    · rwa [hquiet.population]

/-- A placeholder that is below the loader is moved to it and to no other. -/
theorem narrows_narrow (he : e ∈ c.group name) (h : c.isBelow loader e = true) :
    ∃ p, Narrows c name loader p (c.narrow loader e) := by
  obtain ⟨p, x, rfl, hx, hbelow⟩ := isBelow_eq_true_iff.mp h
  refine ⟨p, he, ⟨x, hx, hbelow, placeholder?_narrow hx⟩, fun q hq => ?_⟩
  show (c.population.modifyPlaceholder p _).placeholder? q = _
  rw [Population.placeholder?_modifyPlaceholder, if_neg (Ne.symm hq)]

/-- Finding an entry disturbs nothing. -/
theorem Fits.undisturbed (h : Fits c name loader placeholders e d) : Undisturbed c name loader d := by
  have hmem := h.mem
  cases h with
  | seen _ => exact (Quiet.refl c).undisturbed name loader
  | below _ h =>
    refine ⟨?_, ?_, ?_, ?_, .inr (narrows_narrow hmem (List.find?_some h))⟩
    all_goals cases e <;> rfl
  | defined _ _ hquiet _ _ _ => exact hquiet.undisturbed name loader

theorem findFitting_undisturbed {found : Except ClassError (Option Entry)}
    (h : (findFitting o name loader placeholders).start s = (found, t)) :
    Undisturbed s.state name loader t.state := by
  rcases findFitting_cases h with ⟨_, _, hfits⟩ | ⟨_, hquiet⟩
  · exact hfits.undisturbed
  · exact hquiet.undisturbed name loader

/-- **A lookup that fails leaves the entries intact.** If no class is answered, whether for an error or
because there is none, every group has the entries it had, every class is as it was, and no placeholder has changed
unless it is one of that name, of which at most one has been narrowed to the loader. -/
theorem lookup_undisturbed (h : (lookup o name loader).start s = (r, t)) (hr : ∀ id, r ≠ .ok (some id)) :
    Undisturbed s.state (Name.canonical name) (Loader.normalize loader) t.state := by
  rcases lookupCanonical_cases h with ⟨id, _, hid⟩ | ⟨_, hquiet⟩ | ⟨placeholder, u, hfound, hload⟩
  · exact absurd hid (hr id)
  · exact hquiet.undisturbed _ _
  · rcases loadAndEnroll_cases hload with ⟨_, hquiet⟩ | ⟨_, _, _, _, _, _, hid, _⟩
    · exact (findFitting_undisturbed hfound).quiet hquiet
    · exact absurd hid (hr _)

/-- A placeholder for `B` at a loader below the root, and the bytes of `A` in its place at the root. -/
def mislabelled : Scene Catalog :=
  after [(sampleOutside Loader.none, .initLoaders [0, 0]), (sampleOutside Loader.none, .addPlaceholder "B" 1),
    (sampleOutside Loader.none, .addSupplied "B" 0 sampleFile)] (opening sampleConfig)

/-- The lookup from the root moves the placeholder and then fails at the name in the bytes. -/
theorem lookup_undisturbed_mislabelled :
    let result := (lookup (sampleOutside Loader.none) "B" Loader.none).start mislabelled
    result.1 = .error (.format "B" 0 (.otherClass "A")) ∧
      Undisturbed mislabelled.state (Name.canonical "B") (Loader.normalize Loader.none) result.2.state ∧
      mislabelled.state.loaderOf (.placeholder 0) = some 1 ∧
      result.2.state.loaderOf (.placeholder 0) = some Loader.root := by
  intro result
  have hfails : result.1 = .error (.format "B" 0 (.otherClass "A")) := by decide +kernel
  refine ⟨hfails, lookup_undisturbed (Prod.eta _).symm fun id hid => ?_, by decide +kernel, by decide +kernel⟩
  cases hfails.symm.trans hid

end ClassCatalog.Catalog
