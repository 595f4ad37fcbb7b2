import ClassCatalog.Proofs.Catalog.Steps
import ClassCatalog.Proofs.Loaded.Original

/-! What becomes of classes.

Requests to the catalog leave the methods of classes alone: every class afterwards is one that was there
before, with the same methods, or has been made of bytes that were read (`Spares`, `perform_spares`). Bodies
and attribute names are changed by calls of the classes themselves. So in a session in which both are used
(`Used`) every class is one that was read from a file (`Used.read`). -/
namespace ClassCatalog.Catalog
open ClassCatalog.Action

/-- The classes there are keep their methods, and those that are new have the methods of a file. -/
structure Spares (c d : Catalog) : Prop where
  kept : ∀ id k, c.population.class? id = some k → ∃ k', d.population.class? id = some k' ∧ k.Intact k'
  made : ∀ id k', c.population.class? id = none → d.population.class? id = some k' →
    ∃ name loader k, Loaded name loader k ∧ k.Intact k'

variable {o : Outside} {name : String} {loader : LoaderId} {placeholder : Option Nat} {s t : Scene Catalog}
  {c d : Catalog} {id : ClassId} {k : LoadedClass}

theorem Loaded.original (h : Loaded name loader k) : k.Original := by
  obtain ⟨o, bytes, r, location, hparse, rfl⟩ := h
  let _ := o.encoding
  exact LoadedClass.original_new (of_parseNamed hparse).1 loader location

instance : IsPreorder Catalog Spares where
  refl c := by
    refine ⟨fun id k hk => ⟨k, hk, refl_of LoadedClass.Intact k⟩, fun id k hnone hk => ?_⟩
    rw [hnone] at hk
    cases hk
  trans c d e h h' := by
    refine ⟨fun id k hk => ?_, fun id k'' hnone hk'' => ?_⟩
    · obtain ⟨k', hk', hintact⟩ := h.kept id k hk
      obtain ⟨k'', hk'', hintact'⟩ := h'.kept id k' hk'
      exact ⟨k'', hk'', trans_of LoadedClass.Intact hintact hintact'⟩
    · cases hk' : d.population.class? id with
      | none => exact h'.made id k'' hk' hk''
      | some k' =>
        obtain ⟨name, loader, k, hloaded, hintact⟩ := h.made id k' hnone hk'
        obtain ⟨_, hsame, hintact'⟩ := h'.kept id k' hk'
        cases hk''.symm.trans hsame
        exact ⟨name, loader, k, hloaded, trans_of LoadedClass.Intact hintact hintact'⟩

namespace Spares

/-- What holds of classes as they are loaded, and does not depend on remembered layouts, goes on to hold. -/
theorem every {P : LoadedClass → Prop} (h : Spares c d) (hintact : ∀ k k', P k → k.Intact k' → P k')
    (hloaded : ∀ name loader k, Loaded name loader k → P k)
    (hc : ∀ id k, c.population.class? id = some k → P k) (hk : d.population.class? id = some k) : P k := by
  cases hbefore : c.population.class? id with
  | some k₀ =>
    obtain ⟨_, hsame, hkept⟩ := h.kept id k₀ hbefore
    cases hk.symm.trans hsame
    exact hintact k₀ k (hc id k₀ hbefore) hkept
  | none =>
    obtain ⟨name, loader, k₀, hk₀, hkept⟩ := h.made id k hbefore hk
    exact hintact k₀ k (hloaded name loader k₀ hk₀) hkept

/-! ### Changes of a catalog -/

theorem of_classes (h : d.population.classes = c.population.classes) : Spares c d := by
  refine ⟨fun id k hk => ⟨k, ?_, refl_of LoadedClass.Intact k⟩, fun id k hnone hk => ?_⟩
  · rw [class?_eq_of_classes h, hk]
  · rw [class?_eq_of_classes h, hnone] at hk
    cases hk

theorem of_quiet (h : Quiet c d) : Spares c d := .of_classes (by rw [h.population])

theorem modifyClass {f : LoadedClass → LoadedClass}
    (hf : ∀ k, c.population.class? id = some k → k.Intact (f k)) : Spares c (c.modifyClass id f) := by
  refine ⟨fun other k hk => ?_, fun other k' hnone hk' => ?_⟩
  · rw [population_modifyClass, Population.class?_modifyClass]
    split
    · rename_i hid
      subst hid
      exact ⟨f k, congrArg _ hk, hf k hk⟩
    · exact ⟨k, hk, refl_of LoadedClass.Intact k⟩
  · rw [class?_modifyClass_eq_none hnone] at hk'
    cases hk'

theorem newClass (hk : Loaded name loader k) : Spares c (c.newClass k).2 := by
  refine ⟨fun id k₀ hk₀ => ⟨k₀, Population.getElem?_push_of_some hk₀ k, refl_of LoadedClass.Intact k₀⟩,
    fun id k' hnone hk' => ?_⟩
  have hpush : (c.population.classes.push k)[id]? = some k' := hk'
  rw [Array.getElem?_push] at hpush
  split at hpush
  · cases hpush
    exact ⟨name, loader, k, hk, refl_of LoadedClass.Intact k⟩
  · cases hnone.symm.trans hpush

theorem link (c : Catalog) (sub sup : ClassId) : Spares c (c.link sub sup) := by
  have hsup : Spares c (c.modifyClass sup fun k => k.addSubclass sub) :=
    .modifyClass fun k _ => .of_methods rfl rfl rfl
  have hsub (d : Catalog) : Spares d (d.modifyClass sub fun k => { k with superClass := some sup }) :=
    .modifyClass fun k _ => .of_methods rfl rfl rfl
  exact trans_of Spares hsup (hsub _)

theorem transfer (c : Catalog) (p : Nat) (id : ClassId) : Spares c (c.transfer p id) := by
  unfold Catalog.transfer
  split
  · exact refl_of Spares c
  · rename_i x _
    have hclear : Spares c (c.modifyPlaceholder p fun x => { x with subclasses := [] }) := .of_classes rfl
    have hadopt (d : Catalog) :
        Spares d (d.modifyClass id fun k => k.adopt x.allRoots x.allMarkers x.subclasses) :=
      .modifyClass fun k _ => .of_methods rfl rfl rfl
    exact trans_of Spares hclear (hadopt _)

theorem linkSubclasses (c : Catalog) (id : ClassId) : Spares c (c.linkSubclasses id) := by
  refine linkSubclasses_of_link c id fun d sub name => .modifyClass fun s _ => ?_
  split <;> exact .of_methods rfl rfl rfl

theorem seat (c : Catalog) (name : String) (placeholder : Option Nat) (id : ClassId) (known : Bool) :
    Spares c (c.seat name placeholder id known) := by
  cases placeholder with
  | none => exact .of_classes (by rw [Catalog.seat, population_register])
  | some p =>
    rw [Catalog.seat, promote_eq]
    have hplaced : Spares (c.transfer p id)
        ((c.transfer p id).setGroup name (placed p id known (c.group name))) := .of_classes rfl
    exact trans_of Spares (trans_of Spares (transfer c p id) hplaced) (linkSubclasses _ id)

theorem enroll (hk : Loaded name loader k) (placeholder : Option Nat) :
    Spares c (c.enroll name placeholder k).2 := by
  cases hknown : c.registered? name k with
  | some id =>
    rw [enroll_of_registered hknown]
    exact seat c name placeholder id true
  | none =>
    rw [enroll_of_unregistered hknown]
    exact trans_of Spares (newClass hk) (seat _ name placeholder _ false)

end Spares

/-! ### Requests -/

theorem findFitting_spares (o : Outside) (name : String) (loader : LoaderId) (placeholders : Bool) :
    Keeps Spares (findFitting o name loader placeholders) := by
  intro s
  cases h : (findFitting o name loader placeholders).start s with
  | mk r t =>
    rcases findFitting_cases h with ⟨_, _, hfits⟩ | ⟨_, hquiet⟩
    · exact .of_classes hfits.classes
    · exact .of_quiet hquiet

theorem loadAndEnroll_spares (o : Outside) (name : String) (loader : LoaderId) (placeholder : Option Nat) :
    Keeps Spares (loadAndEnroll o name loader placeholder) := by
  intro s
  cases h : (loadAndEnroll o name loader placeholder).start s with
  | mk r t =>
    rcases loadAndEnroll_cases h with ⟨_, hquiet⟩ | ⟨u, k, l, hquiet, hk, _, _, ht⟩
    · exact .of_quiet hquiet
    · show Spares s.state t.state
      rw [ht]
      exact trans_of Spares (.of_quiet hquiet) (.enroll hk placeholder)

theorem lookup_spares (o : Outside) (name : String) (loader : LoaderId) : Keeps Spares (lookup o name loader) :=
  (surveys_keeps Spares).lookup (findFitting_spares o) (fun n l p _ _ => loadAndEnroll_spares o n l p) name loader

theorem onClass_spares {α : Type} (absent : α) (id : ClassId) {a : Action LoadedClass α}
    (h : Keeps LoadedClass.Intact a) : Keeps Spares (onClass absent id a) := by
  refine onClass_keeps fun c k told hk => .modifyClass fun k' hk' => ?_
  cases hk.symm.trans hk'
  exact h ⟨k, told⟩

theorem bytecode_spares (id : ClassId) (i : Nat) : Keeps Spares (onClass none id (LoadedClass.bytecode i)) :=
  onClass_spares none id (LoadedClass.bytecode_intact i)

theorem spares_parts (o : Outside) : Parts o fun _ a => Keeps Spares a where
  toTraverses := (surveys_keeps Spares).toTraverses
  find := findFitting_spares o
  load name loader placeholder _ := loadAndEnroll_spares o name loader placeholder
  defining name loader := (definingLoader_quiet o name loader).mono fun _ _ => .of_quiet
  list := (onClassPath_quiet [] _).mono fun _ _ => .of_quiet
  code := bytecode_spares
  length id i := onClass_spares 0 id (LoadedClass.bytecodeLength_intact i)
  expected name loader s := .of_classes (classes_newPlaceholder s.state name loader)
  placeholder name loader s :=
    addPlaceholder_of_new (fun c _ _ => .of_classes (classes_newPlaceholder c _ _)) s.state name loader
  special name s := special_of_new (fun c name => .of_classes (classes_newSpecial c name)) s.state name
  noted _ _ _ _ := .of_classes rfl
  linked sub sup s := .link s.state sub sup
  implemented _ _ _ := .modifyClass fun _ _ => .of_methods rfl rfl rfl

/-- No request changes the methods of a class, also if it fails. -/
theorem perform_spares (o : Outside) (r : Request) : Keeps Spares (perform o r) := by
  cases r with
  | initClassPath | initLoaders _ | addLoader _ _ | addSupplied _ _ _ | announce _ _ | clear | close =>
    exact change_keeps fun c => .of_classes rfl
  | _ => exact (spares_parts o).perform rfl

/-! ### Sessions -/

/-- As long as no class is called, all of them have their original methods. -/
theorem Reachable.original (h : Reachable s) (hk : s.state.population.class? id = some k) : k.Original := by
  have hloaded : ∀ name loader k, Loaded name loader k → k.Original := fun _ _ _ h => h.original
  revert id k
  refine h.invariant (P := fun c => ∀ {id k}, c.population.class? id = some k → k.Original) (fun _ => nofun) ?_
  intro o r s hs id k hk
  exact (perform_spares o r s).every (fun _ _ h => h.intact) hloaded (fun _ _ => hs) hk

/-- Whatever a session has done, its classes are those of files. -/
theorem Used.read (h : Used s) (hk : s.state.population.class? id = some k) : k.Read := by
  have hloaded : ∀ name loader k, Loaded name loader k → k.Read := fun _ _ _ h => h.original.toRead
  refine h.invariant (P := fun c => ∀ id k, c.population.class? id = some k → k.Read) (fun _ => nofun) ?_ ?_ id k hk
  · intro o r s hs id k hk
    exact (perform_spares o r s).every (fun _ _ h => h.intact) hloaded hs hk
  · refine call_keeps fun c called f hf hc id k hk => ?_
    rw [population_modifyClass, Population.class?_modifyClass] at hk
    split at hk
    · rename_i hid
      subst hid
      obtain ⟨k₀, hk₀, rfl⟩ := Option.map_eq_some_iff.mp hk
      exact (hc called k₀ hk₀).steps (hf k₀ hk₀)
    · exact hc id k hk

end ClassCatalog.Catalog
