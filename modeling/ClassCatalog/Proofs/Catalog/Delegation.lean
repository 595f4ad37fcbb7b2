import ClassCatalog.Proofs.Catalog.Lookup
import ClassCatalog.Proofs.Catalog.Run

/-! Delegation.

`answers_visible`: whatever a lookup answers is at the loader asked for, strictly above it, or
at the loader that the client has named as the one that defines the class. It is a matter of
how the entry was found: `Fits.reaches` for one that was there, `lookupCanonical_answer` for
one that was loaded. A placeholder that has just been made is at the loader itself. -/
namespace ClassCatalog.Catalog
open ClassCatalog.Action

/-- Where `loader` may find an entry of `name`. -/
def Visible (c : Catalog) (name : String) (loader : LoaderId) (e : Entry) : Prop :=
  ∃ l, c.loaderOf e = some l ∧
    (l = loader ∨ (l ≠ loader ∧ c.index.loaders.Above loader l) ∨
      (c.index.defining.get? (name, loader) = some l ∧ l ≠ Loader.none))

variable {o : Outside} {name : String} {loader : LoaderId} {e : Entry} {c : Catalog} {s t : Scene Catalog}

theorem Reaches.visible (h : c.Reaches name loader e) : c.Visible name loader e := by
  rcases h with h | ⟨l, hknown, hl, hloader⟩
  · obtain ⟨l, hloader, hl⟩ := sees_eq_true_iff.mp h
    refine ⟨l, hloader, ?_⟩
    rcases Loader.Graph.mem_ancestry.mp hl with h | h
    · exact .inl h
    · exact .inr (.inl (Loader.Graph.above_of_isAncestor h))
  · exact ⟨l, hloader, .inr (.inr ⟨hknown, hl⟩)⟩

theorem loaderOf_newPlaceholder (c : Catalog) (name : String) (loader : LoaderId) :
    (c.newPlaceholder name loader).2.loaderOf (c.newPlaceholder name loader).1 = some loader := by
  obtain ⟨groups, h⟩ := register_eq (c.modifyPopulation fun p =>
    { p with placeholders := p.placeholders.push (.new name loader) }) name
    (.placeholder c.population.placeholders.size)
  unfold newPlaceholder
  dsimp only
  rw [h]
  exact congrArg (Option.map Placeholder.loader) Array.getElem?_push_size

theorem lookupOrPlaceholder_reaches (h : (lookupOrPlaceholder o name loader).start s = (.ok e, t)) :
    t.state.Reaches (Name.canonical name) (Loader.normalize loader) e := by
  obtain ⟨found, u, hfound, h⟩ := of_start_bind_ok h
  split at h
  · cases h
    exact (fits_of_findFitting hfound).reaches
  · rw [start_state_bind] at h
    cases h
    refine .inl (sees_eq_true_iff.mpr ⟨_, loaderOf_newPlaceholder .., ?_⟩)
    exact Loader.Graph.mem_ancestry.mpr (.inl rfl)

/-- **Lookups respect delegation**, whatever the session, the loader table and the client: an
entry that is answered is visible to the loader in the catalog afterwards. -/
theorem answers_visible (o : Outside) (name : String) (loader : LoaderId) (s t : Scene Catalog) :
    (∀ id, (lookup o name loader).start s = (.ok (some id), t) →
      t.state.Visible (Name.canonical name) (Loader.normalize loader) (.loaded id)) ∧
    (∀ placeholders e, (lookupRegistered o name loader placeholders).start s = (.ok (some e), t) →
      t.state.Visible (Name.canonical name) (Loader.normalize loader) e) ∧
    (∀ e, (lookupOrPlaceholder o name loader).start s = (.ok e, t) →
      t.state.Visible (Name.canonical name) (Loader.normalize loader) e) := by
  refine ⟨fun id h => ?_, fun placeholders e h => ?_, fun e h => ?_⟩
  · exact (lookupCanonical_answer h).2.visible
  · exact (fits_of_findFitting h).reaches.visible
  · exact (lookupOrPlaceholder_reaches h).visible

/-- Two siblings; the bytes of `A` are at 2, which the client names for 1 as well. -/
def siblings : Scene Catalog :=
  after [(sampleOutside 2, .initLoaders [0, 0, 0]), (sampleOutside 2, .addSupplied "A" 2 sampleFile)]
    (opening sampleConfig)

theorem answers_visible_siblings :
    let o := sampleOutside 2
    let t := ((lookup o "A" 1).start siblings).2
    let u := ((lookupRegistered o "A" 1 true).start t).2
    let v := ((lookupOrPlaceholder o "A" 1).start u).2
    (((lookup o "A" 1).start siblings).1 = .ok (some 0) ∧
      t.state.Visible (Name.canonical "A") (Loader.normalize 1) (.loaded 0)) ∧
    (((lookupRegistered o "A" 1 true).start t).1 = .ok (some (.loaded 0)) ∧
      u.state.Visible (Name.canonical "A") (Loader.normalize 1) (.loaded 0)) ∧
    (((lookupOrPlaceholder o "A" 1).start u).1 = .ok (.loaded 0) ∧
      v.state.Visible (Name.canonical "A") (Loader.normalize 1) (.loaded 0)) := by
  intro o t u v
  have hlookup : ((lookup o "A" 1).start siblings).1 = .ok (some 0) := by decide +kernel
  have hregistered : ((lookupRegistered o "A" 1 true).start t).1 = .ok (some (.loaded 0)) := by decide +kernel
  have hplaceholder : ((lookupOrPlaceholder o "A" 1).start u).1 = .ok (.loaded 0) := by decide +kernel
  exact ⟨⟨hlookup, (answers_visible o "A" 1 siblings t).1 0 (Prod.ext hlookup rfl)⟩,
    ⟨hregistered, (answers_visible o "A" 1 t u).2.1 true _ (Prod.ext hregistered rfl)⟩,
    ⟨hplaceholder, (answers_visible o "A" 1 u v).2.2 _ (Prod.ext hplaceholder rfl)⟩⟩

end ClassCatalog.Catalog
