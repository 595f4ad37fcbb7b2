import ClassCatalog.Proofs.Catalog.Quiet
import ClassCatalog.Proofs.Loader

/-! The entry that fits a loader.

`Fits` lists the three ways in which `findFitting` comes by an entry: the loader sees it, it
is a placeholder below and is narrowed, or it is at the defining loader the client has named.
`findFitting_cases` says there are no others, and that without an entry nothing changes.

`Reaches` is what all three amount to for the loader of the entry afterwards. -/
namespace ClassCatalog.Catalog
open ClassCatalog.Action

/-- The entries of a name that are looked at. -/
def candidates (c : Catalog) (name : String) (placeholders : Bool) : List Entry :=
  (c.group name).filter fun e => placeholders || !e.isPlaceholder

@[simp] theorem candidates_true (c : Catalog) (name : String) : c.candidates name true = c.group name := by
  simp [candidates]

/-- `e` is the entry of `name` that fits `loader` in `c`, and finding it leaves `d`. -/
inductive Fits (c : Catalog) (name : String) (loader : LoaderId) (placeholders : Bool) (e : Entry) :
    Catalog → Prop where
  | seen (h : (c.candidates name placeholders).find? (c.sees loader) = some e) :
      Fits c name loader placeholders e c
  | below (hseen : (c.candidates name placeholders).find? (c.sees loader) = none)
      (h : (c.candidates name placeholders).find? (c.isBelow loader) = some e) :
      Fits c name loader placeholders e (c.narrow loader e)
  | defined {d : Catalog} {l : LoaderId}
      (hseen : (c.candidates name placeholders).find? (c.sees loader) = none)
      (hbelow : (c.candidates name placeholders).find? (c.isBelow loader) = none)
      (hquiet : Quiet c d) (hl : l ≠ Loader.none)
      (hknown : d.index.defining.get? (name, loader) = some l)
      (h : (c.candidates name placeholders).find? (fun e => c.loaderOf e = some l) = some e) :
      Fits c name loader placeholders e d

variable {o : Outside} {name : String} {loader : LoaderId} {placeholders : Bool} {e : Entry}
  {s t : Scene Catalog} {c d : Catalog}

/-! ### What is found -/

/-- The outcome once the loader sees none of the entries and there is none to narrow. -/
def atDefining (o : Outside) (c : Catalog) (name : String) (loader : LoaderId) (placeholders : Bool) :
    Action Catalog (Option Entry) := do
  let l ← definingLoader o name loader
  if l = Loader.none then return none
  else return (c.candidates name placeholders).find? fun e => c.loaderOf e = some l

theorem start_findFitting (o : Outside) (name : String) (loader : LoaderId) (placeholders : Bool)
    (s : Scene Catalog) :
    (findFitting o name loader placeholders).start s =
      if (s.state.candidates name placeholders).isEmpty then (.ok none, s)
      else match (s.state.candidates name placeholders).find? (s.state.sees loader) with
        | some e => (.ok (some e), s)
        | none => match (s.state.candidates name placeholders).find? (s.state.isBelow loader) with
          | some e => (.ok (some e), { s with state := s.state.narrow loader e })
          | none => (atDefining o s.state name loader placeholders).start s := by
  unfold findFitting atDefining candidates
  rw [start_state_bind]
  generalize (s.state.group name).filter (fun e => placeholders || !e.isPlaceholder) = l
  by_cases hempty : l.isEmpty = true
  · rw [if_pos hempty, if_pos hempty]
    rfl
  · rw [if_neg hempty, if_neg hempty]
    cases l.find? (s.state.sees loader) with
    | some e => rfl
    | none =>
      cases l.find? (s.state.isBelow loader) with
      | some e => rfl
      | none => rfl

theorem start_atDefining_of_known {l : LoaderId} (hl : l ≠ Loader.none)
    (hknown : s.state.index.defining.get? (name, loader) = some l) :
    (atDefining o c name loader placeholders).start s =
      (.ok ((c.candidates name placeholders).find? fun e => c.loaderOf e = some l), s) := by
  unfold atDefining
  rw [start_bind, start_definingLoader_of_known hknown]
  dsimp only
  rw [if_neg hl]
  rfl

theorem atDefining_cases {r : Except ClassError (Option Entry)}
    (h : (atDefining o c name loader placeholders).start s = (r, t)) :
    Quiet s.state t.state ∧ ∀ e, r = .ok (some e) → ∃ l, l ≠ Loader.none ∧
      t.state.index.defining.get? (name, loader) = some l ∧
      (c.candidates name placeholders).find? (fun e => c.loaderOf e = some l) = some e := by
  rcases of_start_bind h with ⟨e, hd, rfl⟩ | ⟨l, u, hd, h⟩
  · exact ⟨(definingLoader_quiet o name loader).of_start hd, nofun⟩
  · have hquiet := (definingLoader_quiet o name loader).of_start hd
    split at h
    · cases h
      exact ⟨hquiet, nofun⟩
    · rename_i hl
      cases h
      refine ⟨hquiet, fun e he => ⟨l, hl, defining_of_definingLoader hd, ?_⟩⟩
      injection he

/-- An entry is found only if it fits; if there is none, nothing changes. -/
theorem findFitting_cases {r : Except ClassError (Option Entry)}
    (h : (findFitting o name loader placeholders).start s = (r, t)) :
    (∃ e, r = .ok (some e) ∧ Fits s.state name loader placeholders e t.state) ∨
      ((∀ e, r ≠ .ok (some e)) ∧ Quiet s.state t.state) := by
  rw [start_findFitting] at h
  split at h
  · cases h
    exact .inr ⟨nofun, .refl _⟩
  · split at h
    · rename_i e hseen
      cases h
      exact .inl ⟨e, rfl, .seen hseen⟩
    · rename_i hseen
      split at h
      · rename_i e hbelow
        cases h
        exact .inl ⟨e, rfl, .below hseen hbelow⟩
      · rename_i hbelow
        obtain ⟨hquiet, hfound⟩ := atDefining_cases h
        by_cases hr : ∃ e, r = .ok (some e)
        · obtain ⟨e, rfl⟩ := hr
          obtain ⟨l, hl, hknown, hfind⟩ := hfound e rfl
          exact .inl ⟨e, rfl, .defined hseen hbelow hquiet hl hknown hfind⟩
        · exact .inr ⟨fun e he => hr ⟨e, he⟩, hquiet⟩

theorem fits_of_findFitting (h : (findFitting o name loader placeholders).start s = (.ok (some e), t)) :
    Fits s.state name loader placeholders e t.state := by
  rcases findFitting_cases h with ⟨e', he, hfits⟩ | ⟨hne, _⟩
  · cases he
    exact hfits
  · exact absurd rfl (hne e)

theorem isEmpty_of_find? {l : List Entry} {f : Entry → Bool} (h : l.find? f = some e) : l.isEmpty = false :=
  List.isEmpty_eq_false_iff_exists_mem.mpr ⟨e, List.mem_of_find?_eq_some h⟩

/-- The first entry that is seen is found at once. -/
theorem start_findFitting_of_seen
    (h : (s.state.candidates name placeholders).find? (s.state.sees loader) = some e) :
    (findFitting o name loader placeholders).start s = (.ok (some e), s) := by
  rw [start_findFitting, isEmpty_of_find? h, h]
  rfl

/-- When nothing is seen or below, the first entry at a known defining loader is found at once. -/
theorem start_findFitting_of_known {l : LoaderId}
    (hseen : (s.state.candidates name placeholders).find? (s.state.sees loader) = none)
    (hbelow : (s.state.candidates name placeholders).find? (s.state.isBelow loader) = none)
    (hl : l ≠ Loader.none) (hknown : s.state.index.defining.get? (name, loader) = some l)
    (h : (s.state.candidates name placeholders).find? (fun e => s.state.loaderOf e = some l) = some e) :
    (findFitting o name loader placeholders).start s = (.ok (some e), s) := by
  rw [start_findFitting, isEmpty_of_find? h, hseen, hbelow, ← h]
  exact start_atDefining_of_known hl hknown

/-! ### Where it is -/

/-- `loader` finds `e` by delegation or at the loader that is known to define `name` for it. -/
def Reaches (c : Catalog) (name : String) (loader : LoaderId) (e : Entry) : Prop :=
  c.sees loader e = true ∨
    ∃ l, c.index.defining.get? (name, loader) = some l ∧ l ≠ Loader.none ∧ c.loaderOf e = some l

/-- A loader sees an entry at itself or above it. -/
theorem sees_eq_true_iff : c.sees loader e = true ↔
    ∃ l, c.loaderOf e = some l ∧ l ∈ c.index.loaders.ancestry loader := by
  unfold sees
  cases c.loaderOf e with
  | none => simp
  | some l => simp [Loader.Graph.mem_ancestry]

theorem isBelow_eq_true_iff : c.isBelow loader e = true ↔
    ∃ id p, e = .placeholder id ∧ c.population.placeholder? id = some p ∧
      c.index.loaders.isAncestor loader p.loader = true := by
  unfold isBelow
  cases e with
  | loaded id => simp
  | special id => simp
  | placeholder id => cases h : c.population.placeholder? id <;> simp [h]

theorem placeholder?_narrow {id : Nat} {p : Placeholder} (h : c.population.placeholder? id = some p) :
    (c.narrow loader (.placeholder id)).population.placeholder? id = some { p with loader := loader } := by
  unfold Population.placeholder? at *
  show (c.population.placeholders.modify id _)[id]? = _
  rw [Array.getElem?_modify, if_pos rfl, h]
  rfl

namespace Fits

theorem mem_candidates (h : Fits c name loader placeholders e d) : e ∈ c.candidates name placeholders := by
  cases h with
  | seen h => exact List.mem_of_find?_eq_some h
  | below _ h => exact List.mem_of_find?_eq_some h
  | defined _ _ _ _ _ h => exact List.mem_of_find?_eq_some h

theorem mem (h : Fits c name loader placeholders e d) : e ∈ c.group name :=
  (List.mem_filter.mp h.mem_candidates).1

/-- What fits is reached afterwards. -/
theorem reaches (h : Fits c name loader placeholders e d) : d.Reaches name loader e := by
  cases h with
  | seen h => exact .inl (List.find?_some h)
  | below _ h =>
    obtain ⟨id, p, rfl, hp, _⟩ := isBelow_eq_true_iff.mp (List.find?_some h)
    refine .inl (sees_eq_true_iff.mpr ⟨loader, ?_, Loader.Graph.mem_ancestry.mpr (.inl rfl)⟩)
    show ((c.narrow loader (.placeholder id)).population.placeholder? id).map Placeholder.loader = _
    rw [placeholder?_narrow hp]
    rfl
  | defined _ _ hquiet hl hknown h =>
    refine .inr ⟨_, hknown, hl, ?_⟩
    rw [hquiet.loaderOf]
    simpa using List.find?_some h

end Fits

end ClassCatalog.Catalog
