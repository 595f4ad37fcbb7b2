import ClassCatalog.Proofs.Catalog.Quiet
import ClassCatalog.Proofs.Loader

/-! What loading finds.

A class that is loaded is made of bytes that were read (`Loaded`), and a fresh one of the name
asked for (`Fresh`), at the loader it was looked for at; `load_found` says which loaders those
are. -/
namespace ClassCatalog.Catalog
open ClassCatalog.Action ClassFile

/-- A class called `name` at `loader`, as it is right after its bytes have been read. -/
def Fresh (name : String) (loader : LoaderId) (k : LoadedClass) : Prop :=
  ∃ r location, k = .new r loader location ∧ r.name = name

namespace Fresh
variable {name : String} {loader : LoaderId} {k : LoadedClass}

theorem name_eq (h : Fresh name loader k) : k.name = name := by
  obtain ⟨r, location, rfl, hr⟩ := h
  exact hr

theorem loader_eq (h : Fresh name loader k) : k.loader = loader := by
  obtain ⟨r, location, rfl, _⟩ := h
  rfl

end Fresh

/-- A class made of bytes that are those of `name`. -/
def Loaded (name : String) (loader : LoaderId) (k : LoadedClass) : Prop :=
  ∃ (o : Outside) (bytes : Bytes) (r : Record) (location : Location), o.parseNamed name bytes = .ok r ∧
    k = .new r loader location

theorem of_parseNamed {o : Outside} {name : String} {bytes : Bytes} {r : Record}
    (h : o.parseNamed name bytes = .ok r) :
    letI := o.encoding
    Record.parse bytes = .ok r ∧ r.name = name := by
  unfold Outside.parseNamed at h
  split at h
  · cases h
  · rename_i hparse
    split at h
    · rename_i hname
      cases h
      exact ⟨hparse, hname⟩
    · cases h

theorem Loaded.fresh {name : String} {loader : LoaderId} {k : LoadedClass} (h : Loaded name loader k) :
    Fresh name loader k := by
  obtain ⟨o, bytes, r, location, hparse, hk⟩ := h
  exact ⟨r, location, hk, (of_parseNamed hparse).2⟩

variable {o : Outside} {name : String} {loader : LoaderId} {k : LoadedClass} {s t : Scene Catalog}

/-- A class that is made of bytes is the one that was asked for. -/
theorem loaded_of_parsed {bytes : Bytes} {location : Location}
    (h : (ofExcept (o.parseNamed name bytes) >>= fun r =>
      (pure (some (LoadedClass.new r loader location)) : Action Catalog _)).start s = (.ok (some k), t)) :
    Loaded name loader k := by
  obtain ⟨r, u, hr, h⟩ := of_start_bind_ok h
  rw [start_ofExcept] at hr
  cases h
  exact ⟨o, bytes, r, location, congrArg Prod.fst hr, rfl⟩

theorem loadSupplied_found (h : (loadSupplied o name loader).start s = (.ok (some k), t)) :
    Loaded name loader k := by
  obtain ⟨c, u, hc, h⟩ := of_start_bind_ok h
  split at h
  · cases h
  · obtain ⟨found, u, _, h⟩ := of_start_bind_ok h
    split at h
    · cases h
    · exact loaded_of_parsed h

theorem loadFromPath_found (h : (loadFromPath o name).start s = (.ok (some k), t)) :
    Loaded name Loader.root k := by
  obtain ⟨found, u, _, h⟩ := of_start_bind_ok h
  split at h
  · cases h
  · obtain ⟨bytes, u, _, h⟩ := of_start_bind_ok h
    split at h
    · cases h
    · exact loaded_of_parsed h

theorem loadAt_found (h : (loadAt o name loader).start s = (.ok (some k), t)) : Loaded name loader k := by
  obtain ⟨found, u, hfound, h⟩ := of_start_bind_ok h
  split at h
  · cases h
    exact loadSupplied_found hfound
  · split at h
    · rename_i hroot
      rw [hroot]
      exact loadFromPath_found h
    · cases h

theorem loadFirst_found {loaders : List LoaderId}
    (h : (loadFirst o name loaders).start s = (.ok (some k), t)) : ∃ l ∈ loaders, Loaded name l k := by
  induction loaders generalizing s with
  | nil => cases h
  | cons l rest ih =>
    obtain ⟨found, u, hfound, h⟩ := of_start_bind_ok h
    split at h
    · cases h
      exact ⟨l, List.mem_cons_self .., loadAt_found hfound⟩
    · obtain ⟨m, hm, hk⟩ := ih h
      exact ⟨m, List.mem_cons_of_mem _ hm, hk⟩

/-- A class is loaded at the loader or above it, or else at the loader that defines it. -/
theorem load_found (h : (load o name loader).start s = (.ok (some k), t)) :
    ∃ l, Loaded name l k ∧ (l ∈ t.state.index.loaders.ancestry loader ∨
      (t.state.index.defining.get? (name, loader) = some l ∧ l ≠ Loader.none)) := by
  have hquiet := (load_quiet o name loader).of_start h
  obtain ⟨c, u, hc, h⟩ := of_start_bind_ok h
  cases hc
  obtain ⟨found, u, hfound, h⟩ := of_start_bind_ok h
  split at h
  · cases h
    obtain ⟨l, hl, hk⟩ := loadFirst_found hfound
    refine ⟨l, hk, .inl ?_⟩
    rw [hquiet.loaders]
    exact hl
  · obtain ⟨l, v, hd, h⟩ := of_start_bind_ok h
    obtain ⟨found, w, hfound, h⟩ := of_start_bind_ok h
    split at h
    · cases h
      obtain ⟨m, hm, hk⟩ := loadFirst_found hfound
      have hkept := ((loadFirst_quiet o name _).of_start hfound).defining _ _ (defining_of_definingLoader hd)
      split at hm
      · cases hm
      · rename_i hl
        rw [List.mem_singleton.mp hm] at hk
        rw [Bool.or_eq_true, not_or, decide_eq_true_iff] at hl
        exact ⟨l, hk, .inr ⟨hkept, hl.1⟩⟩
    · obtain ⟨_, _, _, h⟩ := of_start_bind_ok h
      cases h

end ClassCatalog.Catalog
