import ClassCatalog.Proofs.Catalog.Traversal

/-! Actions that register nothing.

Reading bytes, asking the client and taking notes of what was missed leave the entries, their
groups and the loaders as they are, and what the client has said about defining loaders is
not forgotten (`Quiet`). Loading a class is such an action: what it finds is registered
later, if at all. -/
namespace ClassCatalog.Catalog

/-- Nothing was registered or changed from `c` to `d`, and no answer about a defining loader was
forgotten. -/
structure Quiet (c d : Catalog) : Prop where
  population : d.population = c.population
  groups : d.index.groups = c.index.groups
  loaders : d.index.loaders = c.index.loaders
  defining : ∀ key l, c.index.defining.get? key = some l → d.index.defining.get? key = some l

namespace Quiet
variable {c d e : Catalog}

theorem refl (c : Catalog) : Quiet c c := ⟨rfl, rfl, rfl, fun _ _ h => h⟩

theorem trans (h : Quiet c d) (h' : Quiet d e) : Quiet c e :=
  ⟨h'.population.trans h.population, h'.groups.trans h.groups, h'.loaders.trans h.loaders,
    fun key l hl => h'.defining key l (h.defining key l hl)⟩

instance : IsPreorder Catalog Quiet where
  refl := refl
  trans _ _ _ := trans

theorem group (h : Quiet c d) (name : String) : d.group name = c.group name := by
  simp only [Catalog.group, h.groups]

theorem loaderOf (h : Quiet c d) (x : Entry) : d.loaderOf x = c.loaderOf x := by
  simp only [Catalog.loaderOf, h.population]

theorem sees (h : Quiet c d) (loader : LoaderId) (x : Entry) : d.sees loader x = c.sees loader x := by
  simp only [Catalog.sees, h.loaderOf, h.loaders]

end Quiet

open ClassCatalog.Action

/-! ### Sources -/

theorem quiet_setSources (c : Catalog) (s : Cache.FileCache.Sources) : Quiet c (c.setSources s) :=
  ⟨rfl, rfl, rfl, fun _ _ h => h⟩

theorem onSources_quiet {α : Type} (a : Action Cache.FileCache.Sources α) : Keeps Quiet (onSources a) :=
  fun s => quiet_setSources s.state _

theorem onClassPath_quiet {α : Type} (absent : α) (a : Action ClassPath α) :
    Keeps Quiet (onClassPath absent a) :=
  (surveys_keeps Quiet).onClassPath fun _ _ => ⟨rfl, rfl, rfl, fun _ _ h => h⟩

/-! ### The defining loader -/

theorem quiet_remember {c : Catalog} {key : ClassKey} (hnew : c.index.defining.get? key = none)
    (l : LoaderId) : Quiet c (c.remember key l) := by
  refine ⟨rfl, rfl, rfl, fun other m hm => ?_⟩
  have hne : key ≠ other := by
    intro e
    rw [← e, hnew] at hm
    cases hm
  show (c.index.defining.insert key l).get? other = some m
  rw [Table.get?_insert, if_neg hne, hm]

variable {o : Outside} {name : String} {loader : LoaderId} {s t : Scene Catalog}

/-- What has been asked before is answered at once. -/
theorem start_definingLoader_of_known {l : LoaderId}
    (h : s.state.index.defining.get? (name, loader) = some l) :
    (definingLoader o name loader).start s = (.ok l, s) := by
  unfold definingLoader
  rw [start_state_bind]
  simp only [h]
  rfl

/-- What has not been asked is asked, if there is a client. -/
theorem start_definingLoader (h : s.state.index.defining.get? (name, loader) = none) :
    (definingLoader o name loader).start s =
      match o.client with
      | none => (.ok Loader.none, ⟨s.state.remember (name, loader) Loader.none, s.journal⟩)
      | some client =>
        let told := s.journal ++ [.askedDefining name loader]
        match client.definingLoader told name loader with
        | .ok l => (.ok l, ⟨s.state.remember (name, loader) l, told⟩)
        | .error .terminated => (.error .targetTerminated, ⟨s.state, told⟩)
        | .error (.failed _) => (.ok Loader.none, ⟨s.state.remember (name, loader) Loader.none, told⟩) := by
  unfold definingLoader
  rw [start_state_bind]
  simp only [h]
  cases o.client with
  | none => rfl
  | some client =>
    simp only [start_bind, start_ask]
    cases (client.definingLoader (s.journal ++ [.askedDefining name loader]) name loader) with
    | ok l => rfl
    | error f => cases f <;> rfl

/-- What has not been asked is remembered, unless the client is gone. -/
theorem start_definingLoader_of_unknown (h : s.state.index.defining.get? (name, loader) = none) :
    (∃ e j, (definingLoader o name loader).start s = (.error e, ⟨s.state, j⟩)) ∨
      ∃ l j, (definingLoader o name loader).start s = (.ok l, ⟨s.state.remember (name, loader) l, j⟩) := by
  rw [start_definingLoader h]
  split
  · exact .inr ⟨_, _, rfl⟩
  · dsimp only
    split
    · exact .inr ⟨_, _, rfl⟩
    · exact .inl ⟨_, _, rfl⟩
    · exact .inr ⟨_, _, rfl⟩

/-- Asking for a defining loader leaves no more than that its answer is remembered. -/
theorem definingLoader_keeps {R : Catalog → Catalog → Prop} [IsPreorder Catalog R]
    (h : ∀ c, c.index.defining.get? (name, loader) = none → ∀ l, R c (c.remember (name, loader) l)) :
    Keeps R (definingLoader o name loader) := by
  intro s
  cases hknown : s.state.index.defining.get? (name, loader) with
  | some l =>
    rw [start_definingLoader_of_known hknown]
    exact refl_of R s.state
  | none =>
    rcases start_definingLoader_of_unknown (o := o) hknown with ⟨e, j, hs⟩ | ⟨l, j, hs⟩
    · rw [hs]
      exact refl_of R s.state
    · rw [hs]
      exact h s.state hknown l

theorem definingLoader_quiet (o : Outside) (name : String) (loader : LoaderId) :
    Keeps Quiet (definingLoader o name loader) :=
  definingLoader_keeps fun _ h l => quiet_remember h l

/-- The answer is remembered. -/
theorem defining_of_definingLoader {l : LoaderId}
    (h : (definingLoader o name loader).start s = (.ok l, t)) :
    t.state.index.defining.get? (name, loader) = some l := by
  cases hknown : s.state.index.defining.get? (name, loader) with
  | some m =>
    rw [start_definingLoader_of_known hknown] at h
    cases h
    exact hknown
  | none =>
    rcases start_definingLoader_of_unknown (o := o) hknown with ⟨e, j, hs⟩ | ⟨m, j, hs⟩
    · rw [hs] at h
      cases h
    · rw [hs] at h
      cases h
      show (s.state.index.defining.insert (name, loader) l).get? (name, loader) = some l
      rw [Table.get?_insert, if_pos rfl]

/-! ### Loading -/

theorem loadFirst_quiet (o : Outside) (name : String) (loaders : List LoaderId) :
    Keeps Quiet (loadFirst o name loaders) :=
  (surveys_keeps Quiet).loadFirst_of_sources (onClassPath_quiet none _) (fun _ _ => onSources_quiet _) loaders

theorem reportMissing_quiet (name : String) (loader : LoaderId) : Keeps Quiet (reportMissing name loader) :=
  (surveys_keeps Quiet).reportMissing (Keeps.update fun _ => ⟨rfl, rfl, rfl, fun _ _ h => h⟩) (.report _)

theorem load_quiet (o : Outside) (name : String) (loader : LoaderId) : Keeps Quiet (load o name loader) :=
  (surveys_keeps Quiet).load (fun loaders _ => loadFirst_quiet o name loaders)
    (definingLoader_quiet o name loader) (reportMissing_quiet name loader)

theorem noteUnusable_quiet (name : String) (loader : LoaderId) (e : ClassError) :
    Keeps Quiet (noteUnusable name loader e) :=
  (surveys_keeps Quiet).noteUnusable (Keeps.update fun _ => ⟨rfl, rfl, rfl, fun _ _ h => h⟩) (.report _)

end ClassCatalog.Catalog
