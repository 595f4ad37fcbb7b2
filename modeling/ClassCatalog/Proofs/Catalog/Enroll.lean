import ClassCatalog.Proofs.Catalog.Group
import ClassCatalog.Proofs.Loaded.Notes

/-! What registering a class does.

`enroll` puts a class at the end of its group or in the place of a placeholder, unless the
group has one at that loader already, which is then used. `Seated` says what holds
afterwards: the class is registered at its loader and has what was noted on the placeholder;
everything else is as it was. -/
namespace ClassCatalog.Catalog
variable {c d : Catalog} {name other : String} {p q : Nat} {id : ClassId} {k : LoadedClass} {e : Entry}

/-! ### Groups -/

theorem group_setGroup (c : Catalog) (name : String) (l : List Entry) (other : String) :
    (c.setGroup name l).group other = if name = other then l else c.group other := by
  unfold group setGroup
  rw [Table.get?_insert]
  split <;> rfl

theorem group_register (c : Catalog) (name : String) (e : Entry) (other : String) :
    (c.register name e).group other =
      if name = other then (if e ∈ c.group name then c.group name else c.group name ++ [e])
      else c.group other := by
  unfold register
  by_cases he : e ∈ c.group name
  · rw [if_pos (List.contains_iff_mem.mpr he), if_pos he]
    split
    · rename_i h
      rw [h]
    · rfl
  · rw [if_neg (fun h => he (List.contains_iff_mem.mp h)), if_neg he, group_setGroup]

theorem mem_register (c : Catalog) (name : String) (e : Entry) : e ∈ (c.register name e).group name := by
  rw [group_register, if_pos rfl]
  split
  · assumption
  · exact List.mem_append_right _ (List.mem_singleton_self e)

theorem register_eq (c : Catalog) (name : String) (e : Entry) :
    ∃ groups, c.register name e = { c with index := { c.index with groups := groups } } := by
  unfold register
  split
  · exact ⟨_, rfl⟩
  · exact ⟨_, rfl⟩

@[simp] theorem population_register (c : Catalog) (name : String) (e : Entry) :
    (c.register name e).population = c.population := by
  obtain ⟨groups, h⟩ := register_eq c name e
  rw [h]

@[simp] theorem population_modifyClass (c : Catalog) (id : ClassId) (f : LoadedClass → LoadedClass) :
    (c.modifyClass id f).population = c.population.modifyClass id f := rfl

theorem class?_eq_of_classes (h : d.population.classes = c.population.classes) (id : ClassId) :
    d.population.class? id = c.population.class? id :=
  congrArg (·[id]?) h

theorem classes_newPlaceholder (c : Catalog) (name : String) (loader : LoaderId) :
    (c.newPlaceholder name loader).2.population.classes = c.population.classes := by
  unfold newPlaceholder
  dsimp only
  rw [population_register]
  rfl

theorem classes_newSpecial (c : Catalog) (name : String) :
    (c.newSpecial name).2.population.classes = c.population.classes := by
  unfold newSpecial
  dsimp only
  rw [population_register]
  rfl

theorem class?_modifyClass_eq_none {f : LoadedClass → LoadedClass} {x : ClassId}
    (h : c.population.class? x = none) : (c.modifyClass id f).population.class? x = none := by
  rw [population_modifyClass, Population.class?_modifyClass, h, Option.map_none, ite_self]

/-- Registering puts at most the entry itself behind the others of its name. -/
theorem exists_new_register (c : Catalog) (name : String) (e : Entry) (other : String) :
    ∃ new, (c.register name e).group other = c.group other ++ new ∧ ∀ x ∈ new, other = name ∧ x = e := by
  rw [group_register]
  split
  · rename_i h
    subst h
    split
    · exact ⟨[], (List.append_nil _).symm, nofun⟩
    · exact ⟨[e], rfl, fun x hx => ⟨rfl, List.mem_singleton.mp hx⟩⟩
  · exact ⟨[], (List.append_nil _).symm, nofun⟩

/-- What becomes of a group when a class takes the place of a placeholder. -/
def placed (p : Nat) (id : ClassId) (known : Bool) (l : List Entry) : List Entry :=
  if known then l.filter (· ≠ .placeholder p) else replaceEntry (.placeholder p) (.loaded id) l

theorem settles_placed (p : Nat) (id : ClassId) (known : Bool) (l : List Entry) :
    Settles l (placed p id known l) := by
  unfold placed
  split
  · exact .filter_ne p l
  · exact .replaceEntry p id l

theorem mem_placed_of_ne {l : List Entry} {known : Bool} (he : e ∈ l) (hne : e ≠ .placeholder p) :
    e ∈ placed p id known l := by
  unfold placed
  split
  · exact List.mem_filter.mpr ⟨he, decide_eq_true hne⟩
  · exact List.mem_map.mpr ⟨e, he, if_neg hne⟩

theorem of_mem_placed {l : List Entry} {known : Bool} (he : e ∈ placed p id known l) :
    (e ∈ l ∧ e ≠ .placeholder p) ∨ (e = .loaded id ∧ .placeholder p ∈ l) := by
  unfold placed at he
  split at he
  · obtain ⟨he, hne⟩ := List.mem_filter.mp he
    exact .inl ⟨he, of_decide_eq_true hne⟩
  · obtain ⟨x, hx, rfl⟩ := List.mem_map.mp he
    split
    · rename_i h
      exact .inr ⟨rfl, h ▸ hx⟩
    · rename_i h
      exact .inl ⟨hx, h⟩

theorem mem_placed_of_new {l : List Entry} (hp : .placeholder p ∈ l) :
    .loaded id ∈ placed p id false l :=
  List.mem_map.mpr ⟨.placeholder p, hp, if_pos rfl⟩

/-! ### Handing over -/

theorem index_transfer (c : Catalog) (p : Nat) (id : ClassId) : (c.transfer p id).index = c.index := by
  unfold transfer
  split <;> rfl

theorem extends_transfer (c : Catalog) (p : Nat) (id : ClassId) :
    c.population.Extends (c.transfer p id).population := by
  unfold transfer
  split
  · exact .refl _
  · have hclear : c.population.Extends (c.population.modifyPlaceholder p fun x => { x with subclasses := [] }) :=
      .modifyPlaceholder fun _ => rfl
    exact hclear.trans (Population.Steady.modifyClass fun k _ => k.grows_adopt _ _ _).toExtends

theorem placeholder?_transfer (h : q ≠ p) :
    (c.transfer p id).population.placeholder? q = c.population.placeholder? q := by
  unfold transfer
  split
  · rfl
  · show (c.population.modifyPlaceholder p _).placeholder? q = _
    rw [Population.placeholder?_modifyPlaceholder, if_neg (Ne.symm h)]

theorem class?_transfer {x : Placeholder} (hx : c.population.placeholder? p = some x) (other : ClassId) :
    (c.transfer p id).population.class? other =
      if id = other then
        (c.population.class? other).map fun k => k.adopt x.allRoots x.allMarkers x.subclasses
      else c.population.class? other := by
  unfold transfer
  rw [hx]
  exact Population.class?_modifyClass ..

/-! ### Linking -/

/-- Classes have grown and nothing else has changed. -/
structure Linked (c d : Catalog) : Prop where
  steady : c.population.Steady d.population
  placeholders : d.population.placeholders = c.population.placeholders
  index : d.index = c.index

theorem Linked.modifyClass {f : LoadedClass → LoadedClass}
    (hf : ∀ k, c.population.class? id = some k → k.Grows (f k)) : Linked c (c.modifyClass id f) :=
  ⟨.modifyClass hf, rfl, rfl⟩

theorem Linked.trans {b : Catalog} (h : Linked b c) (h' : Linked c d) : Linked b d :=
  ⟨h.steady.trans h'.steady, h'.placeholders.trans h.placeholders, h'.index.trans h.index⟩

instance : IsPreorder Catalog Linked where
  refl _ := ⟨.refl _, rfl, rfl⟩
  trans _ _ _ := .trans

/-- Linking subclasses does what linking each of them does. -/
theorem linkSubclasses_of_link {R : Catalog → Catalog → Prop} [IsPreorder Catalog R] (c : Catalog) (id : ClassId)
    (h : ∀ (d : Catalog) (sub : ClassId) (name : String), R d (d.modifyClass sub fun s =>
      if awaits s name then { s with superClass := some id } else s)) :
    R c (c.linkSubclasses id) := by
  unfold linkSubclasses
  split
  · exact refl_of R c
  · rename_i k _
    have hall : ∀ (ids : List ClassId) (d : Catalog), R d (ids.foldl (fun d sub => d.modifyClass sub fun s =>
        if awaits s k.name then { s with superClass := some id } else s) d) := by
      intro ids
      induction ids with
      | nil => exact refl_of R
      | cons sub rest ih => exact fun d => trans_of R (h d sub k.name) (ih _)
    exact hall k.subclasses c

theorem linkSubclasses_linked (c : Catalog) (id : ClassId) : Linked c (c.linkSubclasses id) := by
  refine linkSubclasses_of_link c id fun d sub name => .modifyClass fun s _ => ?_
  split
  · exact ⟨rfl, rfl, le_refl _⟩
  · exact refl_of _ s

/-! ### Taking a place -/

theorem promote_eq (c : Catalog) (name : String) (p : Nat) (id : ClassId) (known : Bool) :
    c.promote name p id known =
      ((c.transfer p id).setGroup name (placed p id known (c.group name))).linkSubclasses id := by
  have hgroup : (c.transfer p id).group name = c.group name := by
    simp only [group, index_transfer]
  unfold promote placed
  dsimp only
  rw [hgroup]
  split <;> rfl

theorem promote_linked (c : Catalog) (name : String) (p : Nat) (id : ClassId) (known : Bool) :
    Linked ((c.transfer p id).setGroup name (placed p id known (c.group name))) (c.promote name p id known) := by
  rw [promote_eq]
  exact linkSubclasses_linked ..

theorem Linked.group (h : Linked c d) (name : String) : d.group name = c.group name := by
  simp only [Catalog.group, h.index]

theorem group_promote (c : Catalog) (name : String) (p : Nat) (id : ClassId) (known : Bool) (other : String) :
    (c.promote name p id known).group other =
      if name = other then placed p id known (c.group name) else c.group other := by
  rw [(promote_linked c name p id known).group, group_setGroup]
  simp only [group, index_transfer]

/-- A class that is there has been put into the group of `name`, in the place of a placeholder if
one is given. -/
structure Seated (c : Catalog) (name : String) (placeholder : Option Nat) (id : ClassId) (d : Catalog) :
    Prop where
  mem : Entry.loaded id ∈ d.group name
  population : c.population.Extends d.population
  groups : ∀ other, Grown (c.group other) (d.group other)
  of_mem : ∀ other e, e ∈ d.group other → e ∈ c.group other ∨ (other = name ∧ e = .loaded id)
  loaders : d.index.loaders = c.index.loaders
  defining : d.index.defining = c.index.defining
  /-- Other placeholders are as they were. -/
  rest : ∀ q, placeholder ≠ some q → d.population.placeholder? q = c.population.placeholder? q ∧
    ∀ other, Entry.placeholder q ∈ c.group other → .placeholder q ∈ d.group other
  /-- The placeholder has handed over its notes. -/
  notes : ∀ p x, placeholder = some p → c.population.placeholder? p = some x →
    ∃ k, d.population.class? id = some k ∧ x.notes ≤ k.notes

theorem seated_register (c : Catalog) (name : String) (id : ClassId) :
    Seated c name none id (c.register name (.loaded id)) := by
  have hgroups := exists_new_register c name (.loaded id)
  have hmem := mem_register c name (.loaded id)
  obtain ⟨groups, h⟩ := register_eq c name (.loaded id)
  rw [h] at hgroups hmem ⊢
  exact {
    mem := hmem
    population := .refl _
    groups := fun other => by
      obtain ⟨new, hnew, _⟩ := hgroups other
      exact ⟨_, new, hnew, .refl _⟩
    of_mem := fun other e he => by
      obtain ⟨new, hnew, hof⟩ := hgroups other
      rw [hnew] at he
      exact (List.mem_append.mp he).imp_right (hof e)
    loaders := rfl
    defining := rfl
    rest := fun q _ => ⟨rfl, fun other hq => by
      obtain ⟨new, hnew, _⟩ := hgroups other
      rw [hnew]
      exact List.mem_append_left _ hq⟩
    notes := nofun }

theorem index_promote (c : Catalog) (name : String) (p : Nat) (id : ClassId) (known : Bool) :
    ∃ groups, (c.promote name p id known).index = { c.index with groups := groups } := by
  rw [(promote_linked c name p id known).index, ← index_transfer c p id]
  exact ⟨_, rfl⟩

theorem placeholder?_promote {known : Bool} (h : q ≠ p) :
    (c.promote name p id known).population.placeholder? q = c.population.placeholder? q := by
  have hsame : (c.promote name p id known).population.placeholder? q =
      (c.transfer p id).population.placeholder? q :=
    congrArg (·[q]?) (promote_linked c name p id known).placeholders
  rw [hsame, placeholder?_transfer h]

theorem seated_promote {known : Bool} (hk : c.population.class? id = some k)
    (hp : Entry.placeholder p ∈ c.group name) (hknown : known = true → Entry.loaded id ∈ c.group name) :
    Seated c name (some p) id (c.promote name p id known) := by
  have hsteady := (promote_linked c name p id known).steady
  obtain ⟨groups, hindex⟩ := index_promote c name p id known
  exact {
    mem := by
      rw [group_promote, if_pos rfl]
      cases known with
      | true => exact mem_placed_of_ne (hknown rfl) nofun
      | false => exact mem_placed_of_new hp
    population := (extends_transfer c p id).trans hsteady.toExtends
    groups := fun other => by
      rw [group_promote]
      split
      · rename_i h
        exact h ▸ ⟨_, [], (List.append_nil _).symm, settles_placed ..⟩
      · exact .refl _
    of_mem := fun other e he => by
      rw [group_promote] at he
      split at he
      · rename_i h
        exact (of_mem_placed he).imp (fun he => h ▸ he.1) fun he => ⟨h.symm, he.1⟩
      · exact .inl he
    loaders := by rw [hindex]
    defining := by rw [hindex]
    rest := fun q hq => by
      have hne : q ≠ p := fun e => hq (congrArg some e.symm)
      refine ⟨placeholder?_promote hne, fun other he => ?_⟩
      rw [group_promote]
      split
      · rename_i h
        exact mem_placed_of_ne (h ▸ he) fun e => hne (Entry.placeholder.inj e)
      · exact he
    notes := fun p' x hp' hx => by
      cases hp'
      have hadopted : (c.transfer p id).population.class? id =
          some (k.adopt x.allRoots x.allMarkers x.subclasses) := by
        rw [class?_transfer hx, if_pos rfl, hk]
        rfl
      obtain ⟨k', hk', hgrows⟩ := hsteady.classes id _ hadopted
      exact ⟨k', hk', le_trans (k.notes_le_adopt x) hgrows.notes⟩ }

/-- Puts a class where it goes, in the place of a placeholder if one is given. -/
def seat (c : Catalog) (name : String) (placeholder : Option Nat) (id : ClassId) (known : Bool) : Catalog :=
  match placeholder with
  | some p => c.promote name p id known
  | none => c.register name (.loaded id)

theorem seated_seat {placeholder : Option Nat} {known : Bool} (hk : c.population.class? id = some k)
    (hp : ∀ p, placeholder = some p → Entry.placeholder p ∈ c.group name)
    (hknown : known = true → Entry.loaded id ∈ c.group name) :
    Seated c name placeholder id (c.seat name placeholder id known) := by
  cases placeholder with
  | none => exact seated_register c name id
  | some p => exact seated_promote hk (hp p rfl) hknown

/-! ### Registering -/

theorem registered?_eq_some (h : c.registered? name k = some id) :
    Entry.loaded id ∈ c.group name ∧ c.loaderOf (.loaded id) = some k.loader := by
  obtain ⟨e, he, hid⟩ := List.exists_of_findSome?_eq_some h
  split at hid
  · rename_i id' hclass
    split at hid
    · rename_i hl
      cases hid
      cases e with
      | loaded _ =>
        cases hclass
        exact ⟨he, hl⟩
      | placeholder _ => cases hclass
      | special _ => cases hclass
    · cases hid
  · cases hid

theorem newClass_linked (c : Catalog) (k : LoadedClass) : Linked c (c.newClass k).2 :=
  ⟨.pushClass _ k, rfl, rfl⟩

theorem class?_newClass (c : Catalog) (k : LoadedClass) :
    (c.newClass k).2.population.class? (c.newClass k).1 = some k :=
  Array.getElem?_push_size

theorem enroll_of_registered {placeholder : Option Nat} (h : c.registered? name k = some id) :
    c.enroll name placeholder k = (id, c.seat name placeholder id true) := by
  unfold enroll
  rw [h]
  cases placeholder <;> rfl

theorem enroll_of_unregistered {placeholder : Option Nat} (h : c.registered? name k = none) :
    c.enroll name placeholder k =
      ((c.newClass k).1, (c.newClass k).2.seat name placeholder (c.newClass k).1 false) := by
  unfold enroll
  rw [h]
  cases placeholder <;> rfl

/-- Of the index a seat changes the groups and nothing else. -/
theorem index_seat (c : Catalog) (name : String) (placeholder : Option Nat) (id : ClassId) (known : Bool) :
    ∃ groups, (c.seat name placeholder id known).index = { c.index with groups := groups } := by
  cases placeholder with
  | none =>
    obtain ⟨groups, h⟩ := register_eq c name (.loaded id)
    exact ⟨groups, congrArg index h⟩
  | some p => exact index_promote c name p id known

theorem index_enroll (c : Catalog) (name : String) (placeholder : Option Nat) (k : LoadedClass) :
    ∃ groups, (c.enroll name placeholder k).2.index = { c.index with groups := groups } := by
  cases h : c.registered? name k with
  | some id =>
    rw [enroll_of_registered h]
    exact index_seat ..
  | none =>
    rw [enroll_of_unregistered h]
    exact index_seat ..

/-- A class that is registered is put where it belongs, or the one that was there before. -/
theorem enroll_seated (c : Catalog) {placeholder : Option Nat} (k : LoadedClass)
    (hp : ∀ p, placeholder = some p → Entry.placeholder p ∈ c.group name) :
    ∃ c₀, Linked c c₀ ∧
      Seated c₀ name placeholder (c.enroll name placeholder k).1 (c.enroll name placeholder k).2 ∧
      c₀.loaderOf (.loaded (c.enroll name placeholder k).1) = some k.loader ∧
      (Entry.loaded (c.enroll name placeholder k).1 ∈ c.group name ∨
        c₀.population.nameOf (.loaded (c.enroll name placeholder k).1) = some k.name) := by
  cases hknown : c.registered? name k with
  | some id =>
    obtain ⟨hmem, hloader⟩ := registered?_eq_some hknown
    obtain ⟨k₀, hk₀, _⟩ := Option.map_eq_some_iff.mp hloader
    rw [enroll_of_registered hknown]
    exact ⟨c, ⟨.refl _, rfl, rfl⟩, seated_seat hk₀ hp fun _ => hmem, hloader, .inl hmem⟩
  | none =>
    have hk := class?_newClass c k
    have hloader : (c.newClass k).2.loaderOf (.loaded (c.newClass k).1) = some k.loader :=
      congrArg (Option.map LoadedClass.loader) hk
    have hname : (c.newClass k).2.population.nameOf (.loaded (c.newClass k).1) = some k.name :=
      congrArg (Option.map LoadedClass.name) hk
    rw [enroll_of_unregistered hknown]
    exact ⟨(c.newClass k).2, newClass_linked c k, seated_seat hk hp nofun, hloader, .inr hname⟩

end ClassCatalog.Catalog
