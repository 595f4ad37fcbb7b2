import ClassCatalog.Proofs.Catalog.Lookup
import ClassCatalog.Proofs.Catalog.Run

/-! What time does to a catalog.

As long as nothing is forgotten and the loaders stay, a later catalog has all the classes at
their loaders, in their places, and no notes are lost: they are on the same entry, or on the
class that took the place of the placeholder (`Later`). Every request keeps this in a catalog
in which the groups have the names of their entries (`Named`), which is every catalog a
session comes to: `after_evolves` and `Used.named`. -/
namespace ClassCatalog.Catalog
open ClassCatalog.Action

/-- The entries of a group have its name. -/
def Named (c : Catalog) : Prop := ∀ name e, e ∈ c.group name → c.population.nameOf e = some name

/-- An entry and the one that is in its place later. -/
def Becomes (e e' : Entry) : Prop := e' = e ∨ ∃ p id, e = .placeholder p ∧ e' = .loaded id

/-- All of `n` is noted on `e`. -/
def Bears (c : Catalog) (e : Entry) (n : Notes) : Prop := ∃ m, c.population.notes? e = some m ∧ n ≤ m

structure Later (c d : Catalog) : Prop where
  loaders : d.index.loaders = c.index.loaders
  defining : ∀ key l, c.index.defining.get? key = some l → d.index.defining.get? key = some l
  population : c.population.Extends d.population
  groups : ∀ name, Grown (c.group name) (d.group name)
  carried : ∀ name e n, e ∈ c.group name → c.Bears e n → ∃ e' ∈ d.group name, Becomes e e' ∧ d.Bears e' n

/-- From a catalog with named groups to a later one. -/
structure Evolves (c d : Catalog) : Prop where
  of_named : c.Named → d.Named ∧ Later c d

variable {b c d : Catalog} {name : String} {loader : LoaderId} {placeholder : Option Nat} {id : ClassId}
  {e e' e'' : Entry} {n : Notes}

theorem Becomes.trans (h : Becomes e e') (h' : Becomes e' e'') : Becomes e e'' := by
  rcases h with rfl | ⟨p, id, rfl, rfl⟩
  · exact h'
  · rcases h' with rfl | ⟨_, _, h, _⟩
    · exact .inr ⟨p, id, rfl, rfl⟩
    · cases h

/-- What is noted on a class stays on it. -/
theorem Bears.of_extends (h : c.Bears (.loaded id) n) (hd : c.population.Extends d.population) :
    d.Bears (.loaded id) n := by
  obtain ⟨m, hm, hle⟩ := h
  obtain ⟨k, hk, rfl⟩ := Option.map_eq_some_iff.mp hm
  obtain ⟨k', hk', hgrows⟩ := hd.classes id k hk
  exact ⟨k'.notes, congrArg (Option.map LoadedClass.notes) hk', le_trans hle hgrows.notes⟩

theorem Bears.of_steady (h : c.Bears e n) (hd : c.population.Steady d.population) : d.Bears e n := by
  cases e with
  | loaded id => exact h.of_extends hd.toExtends
  | placeholder p =>
    obtain ⟨m, hm, hle⟩ := h
    obtain ⟨x, hx, rfl⟩ := Option.map_eq_some_iff.mp hm
    obtain ⟨x', hx', hle'⟩ := hd.noted p x hx
    exact ⟨x'.notes, congrArg (Option.map Placeholder.notes) hx', le_trans hle hle'⟩
  | special i =>
    obtain ⟨m, hm, _⟩ := h
    cases hm

namespace Later

theorem refl (c : Catalog) : Later c c :=
  ⟨rfl, fun _ _ h => h, .refl _, fun _ => .refl _, fun _ e _ he hn => ⟨e, he, .inl rfl, hn⟩⟩

theorem trans (h : Later b c) (h' : Later c d) : Later b d := by
  refine ⟨h'.loaders.trans h.loaders, fun key l hl => h'.defining key l (h.defining key l hl),
    h.population.trans h'.population, fun name => (h.groups name).trans (h'.groups name), ?_⟩
  intro name e n he hn
  obtain ⟨e', he', hbecomes, hn'⟩ := h.carried name e n he hn
  obtain ⟨e'', he'', hbecomes', hn''⟩ := h'.carried name e' n he' hn'
  exact ⟨e'', he'', hbecomes.trans hbecomes', hn''⟩

end Later

/-- Notes stay where they are, except that a placeholder whose place is taken hands them over. -/
theorem Seated.carried {other : String} (h : Seated c name placeholder id d)
    (hother : ∀ q, placeholder = some q → Entry.placeholder q ∈ c.group other → other = name)
    (he : e ∈ c.group other) (hn : c.Bears e n) :
    ∃ e' ∈ d.group other, Becomes e e' ∧ d.Bears e' n ∧
      (e' = .loaded id ↔ placeholder.map Entry.placeholder = some e ∨ e = .loaded id) := by
  cases e with
  | loaded i =>
    refine ⟨_, (h.groups other).mem he, .inl rfl, hn.of_extends h.population, .inr, fun h => ?_⟩
    rcases h with h | h
    · cases placeholder <;> cases h
    · exact h
  | special i =>
    obtain ⟨m, hm, _⟩ := hn
    cases hm
  | placeholder q =>
    obtain ⟨m, hm, hle⟩ := hn
    obtain ⟨x, hx, rfl⟩ := Option.map_eq_some_iff.mp hm
    by_cases hq : placeholder = some q
    · obtain ⟨k, hk, hle'⟩ := h.notes q x hq hx
      rw [hother q hq he, hq]
      refine ⟨.loaded id, h.mem, .inr ⟨q, id, rfl, rfl⟩, ⟨k.notes, ?_, le_trans hle hle'⟩, ?_⟩
      · exact congrArg (Option.map LoadedClass.notes) hk
      · exact iff_of_true rfl (.inl rfl)
    · obtain ⟨hsame, hmem⟩ := h.rest q hq
      refine ⟨_, hmem other he, .inl rfl, ⟨x.notes, ?_, hle⟩, ?_⟩
      · rw [← hm]
        exact congrArg (Option.map Placeholder.notes) hsame
      · refine iff_of_false nofun fun h => ?_
        rcases h with h | h
        · obtain ⟨q', hq', e⟩ := Option.map_eq_some_iff.mp h
          exact hq (hq'.trans (congrArg some (Entry.placeholder.inj e)))
        · cases h

namespace Evolves

instance : IsPreorder Catalog Evolves where
  refl c := ⟨fun h => ⟨h, .refl c⟩⟩
  trans _ _ _ h h' := by
    refine ⟨fun hnamed => ?_⟩
    obtain ⟨hnamed, hlater⟩ := h.of_named hnamed
    obtain ⟨hnamed, hlater'⟩ := h'.of_named hnamed
    exact ⟨hnamed, hlater.trans hlater'⟩

/-- Nothing that is noted goes and new entries come at the end. -/
theorem of_steady (hpopulation : c.population.Steady d.population)
    (hgroups : ∀ name, ∃ new, d.group name = c.group name ++ new ∧
      ∀ e ∈ new, d.population.nameOf e = some name)
    (hloaders : d.index.loaders = c.index.loaders)
    (hdefining : ∀ key l, c.index.defining.get? key = some l → d.index.defining.get? key = some l) :
    Evolves c d := by
  refine ⟨fun hnamed => ⟨fun name e he => ?_, ?_⟩⟩
  · obtain ⟨new, hnew, hname⟩ := hgroups name
    rw [hnew] at he
    rcases List.mem_append.mp he with he | he
    · exact hpopulation.nameOf (hnamed name e he)
    · exact hname e he
  refine ⟨hloaders, hdefining, hpopulation.toExtends, fun name => ?_,
    fun name e n he hn => ?_⟩
  · obtain ⟨new, hnew, _⟩ := hgroups name
    exact ⟨_, new, hnew, .refl _⟩
  · obtain ⟨new, hnew, _⟩ := hgroups name
    refine ⟨e, ?_, .inl rfl, hn.of_steady hpopulation⟩
    rw [hnew]
    exact List.mem_append_left _ he

/-- Nothing that is noted goes and no entries come. -/
theorem of_groups (hpopulation : c.population.Steady d.population)
    (hgroups : d.index.groups = c.index.groups) (hloaders : d.index.loaders = c.index.loaders)
    (hdefining : ∀ key l, c.index.defining.get? key = some l → d.index.defining.get? key = some l) :
    Evolves c d := by
  refine .of_steady hpopulation (fun name => ⟨[], ?_, nofun⟩) hloaders hdefining
  rw [List.append_nil]
  simp only [group, hgroups]

theorem of_quiet (h : Quiet c d) : Evolves c d := by
  refine .of_groups ?_ h.groups h.loaders h.defining
  rw [h.population]
  exact .refl _

theorem of_linked (h : Linked c d) : Evolves c d := by
  refine .of_groups h.steady ?_ ?_ ?_
  · rw [h.index]
  · rw [h.index]
  · rw [h.index]
    exact fun _ _ h => h

/-- Changing a placeholder, but not its name or its notes. -/
theorem modifyPlaceholder {p : Nat} {f : Placeholder → Placeholder} (hname : ∀ x, (f x).name = x.name)
    (hnotes : ∀ x, x.notes ≤ (f x).notes) : Evolves c (c.modifyPlaceholder p f) :=
  .of_groups (.modifyPlaceholder hname hnotes) rfl rfl fun _ _ h => h

theorem of_fits {placeholders : Bool} (h : Fits c name loader placeholders e d) : Evolves c d :=
  .of_groups h.steady h.index.1 h.index.2 h.defining

/-- A class that is there and has the name comes into its group. -/
theorem of_seated (h : Seated c name placeholder id d)
    (hp : ∀ p, placeholder = some p → Entry.placeholder p ∈ c.group name)
    (hname : c.Named → c.population.nameOf (.loaded id) = some name) : Evolves c d := by
  refine ⟨fun hnamed => ⟨fun other e he => ?_, h.loaders, ?_, h.population, h.groups,
    fun other e n he hn => ?_⟩⟩
  · rcases h.of_mem other e he with he | ⟨rfl, rfl⟩
    · exact h.population.nameOf (hnamed other e he)
    · exact h.population.nameOf (hname hnamed)
  · rw [h.defining]
    exact fun _ _ h => h
  · have hother : ∀ q, placeholder = some q → Entry.placeholder q ∈ c.group other → other = name :=
      fun q hq he => Option.some.inj ((hnamed other _ he).symm.trans (hnamed name _ (hp q hq)))
    obtain ⟨e', he', hbecomes, hn', _⟩ := h.carried hother he hn
    exact ⟨e', he', hbecomes, hn'⟩

end Evolves

end ClassCatalog.Catalog
